import Ds4Studio.Kvstore.Entry
import Ds4Studio.Session.Sync

/-!
Loading a checkpoint for a prompt. The lookup hashes a prefix of the prompt for
every entry and keeps the longest match; the file of that entry is checked again
and its payload is loaded into the session.
-/

namespace Ds4Studio.Kvstore

open Bytes List Option Session

variable {Tok Log : Type*}

structure Options where
  minTokens : ℤ
  coldMaxTokens : ℤ

/-- `ds4_kvstore`, without the scan of the directory it caches. -/
structure Store where
  enabled : Bool
  budgetBytes : ℕ
  rejectDifferentQuant : Bool
  opt : Options
  continuedLastStoreTokens : ℤ

/-- What the store asks the engine and the session for. -/
structure Engine (Tok Log : Type*) where
  modelId : ℕ
  quantBits : ℕ
  ctxSize : ℕ
  tokenizeRenderedChat : Bytes → List Tok
  tokenText : Tok → Bytes
  loadPayload : ℕ → Bytes → Payload Tok Log × Option LoadStop

/-- A 32-bit count read as an `int`. -/
def toInt (n : ℕ) : ℤ := if n < 2 ^ 31 then n else n - 2 ^ 32

/-- An entry that may be loaded for the prompt at all. -/
def usable (kc : Store) (eng : Engine Tok Log) (prompt : Bytes) (e : Entry) : Bool :=
  decide (e.textBytes ≤ prompt.length) && decide (kc.opt.minTokens ≤ toInt e.header.tokens) &&
    decide (e.header.modelId = UInt8.ofNat eng.modelId) && decide (e.header.ctxSize ≤ eng.ctxSize) &&
    !(kc.rejectDifferentQuant && decide (e.header.quantBits ≠ UInt8.ofNat eng.quantBits))

def outranks (e b : Entry) : Bool :=
  decide (b.textBytes < e.textBytes) ||
    (decide (b.textBytes = e.textBytes) && decide (b.header.tokens < e.header.tokens))

/-- One round of the loop of `ds4_kvstore_find_text_prefix`. -/
def considerEntry (sha1 : Bytes → Bytes) (kc : Store) (eng : Engine Tok Log) (prompt : Bytes)
    (best : Option Entry) (e : Entry) : Option Entry :=
  if usable kc eng prompt e = false then best
  else
    match best with
    | some b =>
        if outranks e b = false then some b
        else if sha1 (prompt.take e.textBytes) = e.sha then some e
        else some b
    | none => if sha1 (prompt.take e.textBytes) = e.sha then some e else none

/-- `ds4_kvstore_find_text_prefix` -/
def findTextPrefix (sha1 : Bytes → Bytes) (kc : Store) (eng : Engine Tok Log) (prompt : Bytes)
    (d : Dir) : Option Entry :=
  d.refresh.foldl (considerEntry sha1 kc eng prompt) none

/-- The checks of a file between its header and its payload. -/
def checkFile (sha1 : Bytes → Bytes) (eng : Engine Tok Log) (prompt sha file : Bytes) :
    Option (Header × ℕ) :=
  match readHeader file with
  | none => none
  | some (hdr, textBytes) =>
      let cached := (file.drop (fixedHeader + 4)).take textBytes
      if hdr.modelId ≠ UInt8.ofNat eng.modelId then none
      else if prompt.length < textBytes then none
      else if cached.length ≠ textBytes then none
      else if sha1 cached ≠ sha then none
      else if ¬ cached <+: prompt then none
      else some (hdr, textBytes)

structure LoadResult where
  tokens : ℤ
  textBytes : ℕ
  quantBits : UInt8
  extFlags : UInt8
  consumed : Bool
  name : Bytes

/-- What a load returns and leaves behind. The trailer is the part of the file
that is handed to the hook. -/
structure Loaded (Tok Log : Type*) where
  tokens : ℤ
  effectivePrompt : List Tok
  result : Option LoadResult
  trailer : Option Bytes
  session : State Tok Log
  dir : Dir
  store : Store

/-- A load that found nothing it could use. -/
def notLoaded (kc : Store) (d : Dir) (s : State Tok Log) : Loaded Tok Log :=
  ⟨0, [], none, none, s, d, kc⟩

/-- `ds4_kvstore_touch_file` -/
def touchFile (now hits : ℕ) (file : Bytes) : Bytes :=
  match readHeader file with
  | none => file
  | some (h, _) =>
      fillHeader { h with hits := hits, lastUsed := now } ++ file.drop fixedHeader

/-- The part of `ds4_kvstore_try_load_text` behind the checks of the file: the
payload goes into the session, and what is left of the file decides its fate. -/
def loadFile (kc : Store) (eng : Engine Tok Log) (extFlag : UInt8) (now : ℕ) (prompt : Bytes)
    (d : Dir) (s : State Tok Log) (name file : Bytes) (hdr : Header) (textBytes : ℕ) :
    Loaded Tok Log :=
  let body := file.drop (fixedHeader + 4 + textBytes)
  let payload := eng.loadPayload hdr.payloadBytes body
  let session := sessionLoadPayload payload.1 payload.2 s
  if payload.2 = none then
    if (session.checkpoint.length : ℤ) = toInt hdr.tokens then
      let loaded := toInt hdr.tokens
      let consumed :=
        decide (0 < kc.opt.coldMaxTokens) && decide (kc.opt.coldMaxTokens < loaded)
      { tokens := loaded
        effectivePrompt := session.checkpoint ++ eng.tokenizeRenderedChat (prompt.drop textBytes)
        result := some ⟨loaded, textBytes, hdr.quantBits, hdr.extFlags, consumed, name⟩
        trailer := if hdr.extFlags &&& extFlag ≠ 0 then some (body.drop hdr.payloadBytes) else none
        session := session
        dir := if consumed then d.unlink name else d.rewrite name (touchFile now (hdr.hits + 1))
        store := { kc with continuedLastStoreTokens := loaded } }
    else notLoaded kc (d.unlink name) (sessionInvalidate session)
  else notLoaded kc d (sessionInvalidate session)

theorem touchFile_length (now hits : ℕ) (file : Bytes) :
    (touchFile now hits file).length = file.length := by
  unfold touchFile
  split
  · rfl
  · rename_i hread
    have hlen := readHeader_length hread
    rw [length_append, fillHeader_length, length_drop]
    omega

/-- `ds4_kvstore_try_load_text` -/
def tryLoadText (sha1 : Bytes → Bytes) (kc : Store) (eng : Engine Tok Log) (extFlag : UInt8)
    (now : ℕ) (prompt : Bytes) (d : Dir) (s : State Tok Log) : Loaded Tok Log :=
  if kc.enabled = false then notLoaded kc d s
  else if eng.quantBits ≠ 2 ∧ eng.quantBits ≠ 4 then notLoaded kc d s
  else
    match findTextPrefix sha1 kc eng prompt d with
    | none => notLoaded kc d s
    | some e =>
        match d.read e.name with
        | none => notLoaded kc d s
        | some file =>
            match checkFile sha1 eng prompt e.sha file with
            | none => notLoaded kc d s
            | some (hdr, textBytes) =>
                loadFile kc eng extFlag now prompt d s e.name file hdr textBytes

/-! ### The lookup -/

section Lookup

variable (sha1 : Bytes → Bytes) (kc : Store) (eng : Engine Tok Log) (prompt : Bytes)

/-- An entry whose file name is the hash of a prefix of the prompt. -/
def matching (e : Entry) : Bool :=
  usable kc eng prompt e && decide (sha1 (prompt.take e.textBytes) = e.sha)

/-- Puts an entry in front of those that do not outrank it. -/
def insertRanked (e : Entry) : List Entry → List Entry
  | [] => [e]
  | b :: rest => if outranks b e then b :: insertRanked e rest else e :: b :: rest

/-- Entries in the order in which lookups prefer them. -/
def ranked (es : List Entry) : List Entry := es.foldr insertRanked []

theorem ranked_cons (e : Entry) (es : List Entry) :
    ranked (e :: es) = insertRanked e (ranked es) := rfl

/-- The entries a lookup could return, in the order of its preference. -/
def candidates (d : Dir) : List Entry := ranked (d.refresh.filter (matching sha1 kc eng prompt))

variable {sha1 kc eng prompt}

theorem considerEntry_eq (best : Option Entry) (e : Entry) :
    considerEntry sha1 kc eng prompt best e =
      if matching sha1 kc eng prompt e then
        match best with
        | some b => if outranks e b then some e else some b
        | none => some e
      else best := by
  unfold considerEntry matching
  cases usable kc eng prompt e with
  | false => simp
  | true =>
    by_cases hsha : sha1 (prompt.take e.textBytes) = e.sha
    · cases best with
      | none => simp [hsha]
      | some b => cases heb : outranks e b <;> simp [hsha, heb]
    · cases best with
      | none => simp [hsha]
      | some b => cases outranks e b <;> simp [hsha]

theorem outranks_iff (e b : Entry) :
    outranks e b = true ↔
      b.textBytes < e.textBytes ∨
        b.textBytes = e.textBytes ∧ b.header.tokens < e.header.tokens := by
  simp [outranks]

theorem outranks_trans {a b c : Entry} (hab : outranks a b = true) (hbc : outranks b c = true) :
    outranks a c = true := by
  rw [outranks_iff] at *
  omega

/-- Ranking is by text length and token count, so what does not outrank does not
help to outrank. -/
theorem not_outranks_trans {a b c : Entry} (hab : outranks a b = false)
    (hbc : outranks b c = false) : outranks a c = false := by
  rw [← Bool.not_eq_true, outranks_iff] at *
  omega

theorem foldl_considerEntry (b : Entry) (es : List Entry) :
    es.foldl (considerEntry sha1 kc eng prompt) (some b) =
      match (ranked (es.filter (matching sha1 kc eng prompt))).head? with
      | some h => if outranks h b then some h else some b
      | none => some b := by
  induction es generalizing b with
  | nil => rfl
  | cons e es ih =>
    rw [foldl_cons, considerEntry_eq]
    by_cases he : matching sha1 kc eng prompt e = true
    · rw [filter_cons_of_pos he, if_pos he, ranked_cons]
      simp only
      rw [← apply_ite some, ih]
      cases hlist : ranked (es.filter (matching sha1 kc eng prompt)) with
      | nil => cases heb : outranks e b <;> simp [insertRanked, heb]
      | cons h rest =>
        -- the head of the rest, the entry and the best so far, in every order
        cases hhe : outranks h e <;> cases heb : outranks e b
        · have := not_outranks_trans hhe heb
          simp [insertRanked, hhe, heb, this]
        · simp [insertRanked, hhe, heb]
        · simp [insertRanked, hhe]
        · have := outranks_trans hhe heb
          simp [insertRanked, hhe, this]
    · rw [filter_cons_of_neg he, if_neg he]
      exact ih b

theorem findTextPrefix_eq (d : Dir) :
    findTextPrefix sha1 kc eng prompt d = (candidates sha1 kc eng prompt d).head? := by
  unfold findTextPrefix candidates
  induction d.refresh with
  | nil => rfl
  | cons e es ih =>
    rw [foldl_cons, considerEntry_eq]
    by_cases he : matching sha1 kc eng prompt e = true
    · rw [if_pos he, filter_cons_of_pos he]
      rw [foldl_considerEntry, ranked_cons]
      cases hlist : ranked (es.filter (matching sha1 kc eng prompt)) with
      | nil => rfl
      | cons h rest => cases hhe : outranks h e <;> simp [insertRanked, hhe]
    · rw [if_neg he, filter_cons_of_neg he]
      exact ih

theorem insertRanked_perm (e : Entry) (es : List Entry) : (insertRanked e es).Perm (e :: es) := by
  induction es with
  | nil => exact List.Perm.refl _
  | cons b rest ih =>
    unfold insertRanked
    split
    · exact (ih.cons b).trans (List.Perm.swap e b rest)
    · exact List.Perm.refl _

theorem ranked_perm (es : List Entry) : (ranked es).Perm es := by
  induction es with
  | nil => exact List.Perm.refl _
  | cons e es ih =>
    exact (insertRanked_perm e (ranked es)).trans (ih.cons e)

theorem mem_ranked {a : Entry} {es : List Entry} : a ∈ ranked es ↔ a ∈ es :=
  (ranked_perm es).mem_iff

theorem mem_candidates {a : Entry} {d : Dir} :
    a ∈ candidates sha1 kc eng prompt d ↔
      a ∈ d.refresh ∧ matching sha1 kc eng prompt a = true := by
  rw [candidates, mem_ranked, mem_filter]

theorem ranked_filter {es rest : List Entry} {e : Entry} (h : ranked es = e :: rest)
    (hnodup : (es.map Entry.name).Nodup) : ranked (es.filter fun a => a.name ≠ e.name) = rest := by
  induction es generalizing rest with
  | nil => simp [ranked] at h
  | cons a es ih =>
    rw [map_cons, nodup_cons] at hnodup
    rw [ranked_cons] at h
    have hfresh : ∀ b ∈ es, b.name ≠ a.name := fun b hb hname =>
      hnodup.1 (hname ▸ List.mem_map_of_mem hb)
    cases hlist : ranked es with
    | nil =>
      rw [hlist] at h
      obtain ⟨rfl, rfl⟩ := cons.inj h
      have hes : es = [] := by
        apply eq_nil_iff_forall_not_mem.mpr
        intro b hb
        rw [← mem_ranked, hlist] at hb
        simp at hb
      simp [hes, ranked]
    | cons b tail =>
      have hb : b ∈ es := by
        rw [← mem_ranked, hlist]
        exact mem_cons_self
      rw [hlist, insertRanked] at h
      split at h
      · rename_i hba
        obtain ⟨rfl, rfl⟩ := cons.inj h
        have hkeep : (a :: es).filter (fun c => decide (c.name ≠ b.name)) =
            a :: es.filter fun c => decide (c.name ≠ b.name) :=
          filter_cons_of_pos (by simpa using (hfresh b hb).symm)
        rw [hkeep, ranked_cons, ih hlist hnodup.2]
      · obtain ⟨rfl, rfl⟩ := cons.inj h
        have hdrop : (a :: es).filter (fun c => decide (c.name ≠ a.name)) = es := by
          rw [filter_cons_of_neg (by simp), filter_eq_self]
          intro c hc
          simpa using hfresh c hc
        rw [hdrop, hlist]

theorem candidates_unlink {d : Dir} {e : Entry} {rest : List Entry}
    (h : candidates sha1 kc eng prompt d = e :: rest) :
    candidates sha1 kc eng prompt (d.unlink e.name) = rest := by
  unfold candidates at h ⊢
  rw [Dir.refresh_unlink, filter_comm]
  apply ranked_filter h
  exact (filter_sublist.map Entry.name).nodup d.refresh_nodup

end Lookup

/-- What a file that passes the checks holds: text that the prompt starts with. -/
structure Checked (eng : Engine Tok Log) (prompt file : Bytes) (hdr : Header) (textBytes : ℕ) :
    Prop where
  header : readHeader file = some (hdr, textBytes)
  modelId : hdr.modelId = UInt8.ofNat eng.modelId
  length : ((file.drop (fixedHeader + 4)).take textBytes).length = textBytes
  text : (file.drop (fixedHeader + 4)).take textBytes <+: prompt

theorem checkFile_spec {sha1 : Bytes → Bytes} {eng : Engine Tok Log}
    {prompt sha file : Bytes} {hdr : Header} {textBytes : ℕ}
    (h : checkFile sha1 eng prompt sha file = some (hdr, textBytes)) :
    Checked eng prompt file hdr textBytes := by
  unfold checkFile at h
  split at h
  · contradiction
  rename_i hdr' textBytes' hread
  simp only at h
  split at h
  · contradiction
  rename_i hmodel
  split at h
  · contradiction
  split at h
  · contradiction
  rename_i hlen
  split at h
  · contradiction
  split at h
  · contradiction
  rename_i htext
  obtain ⟨rfl, rfl⟩ := Prod.mk.inj (some.inj h)
  exact ⟨hread, not_not.mp hmodel, not_not.mp hlen, not_not.mp htext⟩

/-! ### One load -/

/-- How a file fares behind the lookup: its payload loads with as many tokens as
its header says, with another number of tokens, or the file is refused. -/
inductive Outcome
  | intact | miscounted | broken
deriving DecidableEq

section OneLoad

variable (sha1 : Bytes → Bytes) (kc : Store) (eng : Engine Tok Log) (extFlag : UInt8)
variable (prompt : Bytes) (d : Dir)

def outcome (e : Entry) : Outcome :=
  match d.read e.name with
  | none => .broken
  | some file =>
      match checkFile sha1 eng prompt e.sha file with
      | none => .broken
      | some (hdr, textBytes) =>
          let payload :=
            eng.loadPayload hdr.payloadBytes (file.drop (fixedHeader + 4 + textBytes))
          if payload.2 = none then
            if (payload.1.tokens.length : ℤ) = toInt hdr.tokens then .intact else .miscounted
          else .broken

/-- The entries that loads for a prompt try, in their order. -/
def offered : List Entry :=
  if kc.enabled = true ∧ (eng.quantBits = 2 ∨ eng.quantBits = 4) then
    candidates sha1 kc eng prompt d
  else []

variable {sha1 kc eng prompt d} {e : Entry}

theorem outcome_unlink {name : Bytes} (h : e.name ≠ name) :
    outcome sha1 eng prompt (d.unlink name) e = outcome sha1 eng prompt d e := by
  unfold outcome
  rw [Dir.read_unlink h]

variable {rest : List Entry}

theorem offered_unlink (h : offered sha1 kc eng prompt d = e :: rest) :
    offered sha1 kc eng prompt (d.unlink e.name) = rest := by
  unfold offered at h ⊢
  split at h
  · rename_i hopen
    rw [if_pos hopen]
    exact candidates_unlink h
  · contradiction

variable (now : ℕ) (s : State Tok Log)

theorem tryLoadText_eq :
    tryLoadText sha1 kc eng extFlag now prompt d s =
      match (offered sha1 kc eng prompt d).head? with
      | none => notLoaded kc d s
      | some e =>
          match d.read e.name with
          | none => notLoaded kc d s
          | some file =>
              match checkFile sha1 eng prompt e.sha file with
              | none => notLoaded kc d s
              | some (hdr, textBytes) =>
                  loadFile kc eng extFlag now prompt d s e.name file hdr textBytes := by
  unfold tryLoadText offered
  by_cases henabled : kc.enabled = false
  · simp [henabled]
  rw [if_neg henabled]
  by_cases hquant : eng.quantBits ≠ 2 ∧ eng.quantBits ≠ 4
  · have hclosed : ¬ (kc.enabled = true ∧ (eng.quantBits = 2 ∨ eng.quantBits = 4)) := by
      intro h
      omega
    rw [if_pos hquant, if_neg hclosed]
    rfl
  have hopen : kc.enabled = true ∧ (eng.quantBits = 2 ∨ eng.quantBits = 4) :=
    ⟨by simpa using henabled, by omega⟩
  rw [if_neg hquant, if_pos hopen, findTextPrefix_eq]

theorem mem_offered (h : e ∈ offered sha1 kc eng prompt d) :
    e ∈ d.refresh ∧ matching sha1 kc eng prompt e = true := by
  unfold offered at h
  split at h
  · exact mem_candidates.mp h
  · simp at h

section

variable (h : offered sha1 kc eng prompt d = e :: rest)

include h

theorem tryLoadText_intact (hout : outcome sha1 eng prompt d e = .intact) :
    ∃ file hdr textBytes, d.read e.name = some file ∧
      checkFile sha1 eng prompt e.sha file = some (hdr, textBytes) ∧
      let r := tryLoadText sha1 kc eng extFlag now prompt d s
      r.tokens = hdr.tokens ∧ r.session.checkpointValid = true ∧
        r.session.checkpoint.length = hdr.tokens ∧
        r.effectivePrompt =
          r.session.checkpoint ++ eng.tokenizeRenderedChat (prompt.drop textBytes) := by
  unfold outcome at hout
  split at hout
  · contradiction
  rename_i file hfile
  split at hout
  · contradiction
  rename_i hdr textBytes hcheck
  simp only at hout
  split at hout
  · rename_i hloads
    split at hout
    · rename_i hcount
      refine ⟨file, hdr, textBytes, hfile, hcheck, ?_⟩
      have hlen : toInt hdr.tokens = hdr.tokens := by
        have hbound := (readHeader_fits (checkFile_spec hcheck).header).1.tokens.2
        unfold toInt at hcount ⊢
        split
        · rfl
        · rename_i hbig
          omega
      have hcount' : (eng.loadPayload hdr.payloadBytes
          (file.drop (fixedHeader + 4 + textBytes))).1.tokens.length = hdr.tokens := by
        rw [hlen] at hcount
        exact_mod_cast hcount
      rw [tryLoadText_eq, h]
      simp only [head?_cons, hfile, hcheck, loadFile, hloads, if_true, sessionLoadPayload]
      rw [if_pos hcount]
      exact ⟨hlen, rfl, hcount', rfl⟩
    · contradiction
  · contradiction

theorem tryLoadText_miscounted (hout : outcome sha1 eng prompt d e = .miscounted) :
    ∃ s', s'.checkpointValid = false ∧ s'.checkpoint = [] ∧
      tryLoadText sha1 kc eng extFlag now prompt d s = notLoaded kc (d.unlink e.name) s' := by
  unfold outcome at hout
  split at hout
  · contradiction
  rename_i file hfile
  split at hout
  · contradiction
  rename_i hdr textBytes hcheck
  simp only at hout
  split at hout
  · rename_i hloads
    split at hout
    · contradiction
    · rename_i hcount
      rw [tryLoadText_eq, h]
      simp only [head?_cons, hfile, hcheck, loadFile, hloads, if_true, sessionLoadPayload]
      rw [if_neg hcount]
      exact ⟨_, rfl, rfl, rfl⟩
  · contradiction

theorem tryLoadText_broken (hout : outcome sha1 eng prompt d e = .broken) :
    ∃ s', (s' = s ∨ s'.checkpointValid = false ∧ s'.checkpoint = []) ∧
      tryLoadText sha1 kc eng extFlag now prompt d s = notLoaded kc d s' := by
  rw [tryLoadText_eq, h]
  unfold outcome at hout
  split at hout
  · rename_i hfile
    simp only [head?_cons, hfile]
    exact ⟨s, .inl rfl, rfl⟩
  rename_i file hfile
  split at hout
  · rename_i hcheck
    simp only [head?_cons, hfile, hcheck]
    exact ⟨s, .inl rfl, rfl⟩
  rename_i hdr textBytes hcheck
  simp only at hout
  split at hout
  · split at hout <;> contradiction
  · rename_i hloads
    simp only [head?_cons, hfile, hcheck, loadFile]
    rw [if_neg hloads]
    exact ⟨_, .inr ⟨rfl, rfl⟩, rfl⟩

end

end OneLoad

/-! ### Repeated requests -/

section Requests

variable (sha1 : Bytes → Bytes) (eng : Engine Tok Log) (extFlag : UInt8) (prompt : Bytes)

/-- The same request once more, `n` times. -/
def retry (now : ℕ → ℕ) : ℕ → Store → Dir → State Tok Log → Loaded Tok Log
  | 0, kc, d, s => tryLoadText sha1 kc eng extFlag (now 0) prompt d s
  | n + 1, kc, d, s =>
      let r := tryLoadText sha1 kc eng extFlag (now 0) prompt d s
      retry (fun i => now (i + 1)) n r.store r.dir r.session

/-- A load that returns tokens read them from a file whose text the prompt starts
with and whose model and quantisation the store admits. -/
def LoadsPrefix (kc : Store) (d : Dir) (r : Loaded Tok Log) : Prop :=
  0 < r.tokens → ∃ e file, e ∈ d.refresh ∧ d.read e.name = some file ∧
    readHeader file = some (e.header, e.textBytes) ∧
    (file.drop (fixedHeader + 4)).take e.textBytes <+: prompt ∧
    e.header.modelId = UInt8.ofNat eng.modelId ∧
    (kc.rejectDifferentQuant = true → e.header.quantBits = UInt8.ofNat eng.quantBits) ∧
    e.header.ctxSize ≤ eng.ctxSize ∧
    r.tokens = e.header.tokens ∧ r.session.checkpointValid = true ∧
    r.session.checkpoint.length = e.header.tokens ∧
    r.effectivePrompt =
      r.session.checkpoint ++ eng.tokenizeRenderedChat (prompt.drop e.textBytes)

/-- A load that returns nothing leaves the session alone or invalidates it. -/
def FailsClean (s : State Tok Log) (r : Loaded Tok Log) : Prop :=
  r.tokens ≤ 0 → r.session = s ∨ r.session.checkpointValid = false ∧ r.session.checkpoint = []

/-- If the entry a request tries does not load although another matching entry is
intact, the request loads when it is repeated often enough. -/
def FallsBack (now : ℕ → ℕ) (kc : Store) (d : Dir) (s : State Tok Log) : Prop :=
  (tryLoadText sha1 kc eng extFlag (now 0) prompt d s).tokens ≤ 0 →
    (∃ e ∈ offered sha1 kc eng prompt d, outcome sha1 eng prompt d e = .intact) →
    ∃ n, 0 < (retry sha1 eng extFlag prompt now n kc d s).tokens

/-- The entry that requests come to when the ones they prefer fail by their token
count alone. -/
structure Queued (kc : Store) (d : Dir) (before : List Entry) (e : Entry) (after : List Entry) :
    Prop where
  offered : offered sha1 kc eng prompt d = before ++ e :: after
  before : ∀ b ∈ before, outcome sha1 eng prompt d b = .miscounted

/-- What a load promises for a directory, a prompt and a session. -/
structure LoadContract (now : ℕ → ℕ) (kc : Store) (d : Dir) (s : State Tok Log) : Prop where
  loadsPrefix :
    LoadsPrefix eng prompt kc d (tryLoadText sha1 kc eng extFlag (now 0) prompt d s)
  failsClean : FailsClean s (tryLoadText sha1 kc eng extFlag (now 0) prompt d s)
  fallsBack : FallsBack sha1 eng extFlag prompt now kc d s

/-- Where a matching entry is intact, the requests come to an intact one. -/
def IntactFirst (kc : Store) (d : Dir) : Prop :=
  (∃ e ∈ offered sha1 kc eng prompt d, outcome sha1 eng prompt d e = .intact) →
    ∃ before e after, Queued sha1 eng prompt kc d before e after ∧
      outcome sha1 eng prompt d e = .intact

variable {sha1 eng extFlag prompt}

theorem tryLoadText_loadsPrefix (now : ℕ) (kc : Store) (d : Dir) (s : State Tok Log) :
    LoadsPrefix eng prompt kc d (tryLoadText sha1 kc eng extFlag now prompt d s) := by
  intro hloaded
  cases hoffered : offered sha1 kc eng prompt d with
  | nil =>
    rw [tryLoadText_eq, hoffered] at hloaded
    simp [notLoaded] at hloaded
  | cons e rest =>
    cases hout : outcome sha1 eng prompt d e with
    | intact =>
      obtain ⟨file, hdr, textBytes, hfile, hcheck, htokens, hvalid, hlength, heffective⟩ :=
        tryLoadText_intact extFlag now s hoffered hout
      have hchecked := checkFile_spec hcheck
      have hmem : e ∈ offered sha1 kc eng prompt d := by
        rw [hoffered]
        exact mem_cons_self
      obtain ⟨hrefresh, hmatching⟩ := mem_offered hmem
      obtain ⟨file', hfile', hscan⟩ := Dir.mem_refresh hrefresh
      obtain rfl := some.inj (hfile.symm.trans hfile')
      have hheader := (scanFile_spec hscan).2.2.2.1
      obtain ⟨rfl, rfl⟩ := Prod.mk.inj (some.inj (hchecked.header.symm.trans hheader))
      simp only [matching, usable, Bool.and_eq_true, decide_eq_true_eq, Bool.not_eq_true',
        Bool.and_eq_false_iff, decide_eq_false_iff_not, not_not] at hmatching
      refine ⟨e, file, hrefresh, hfile, hheader, hchecked.text, hchecked.modelId, ?_,
        hmatching.1.1.2, htokens, hvalid, hlength, heffective⟩
      intro hreject
      rcases hmatching.1.2 with hfree | hquant
      · rw [hreject] at hfree
        contradiction
      · exact hquant
    | miscounted =>
      obtain ⟨s', -, -, hr⟩ := tryLoadText_miscounted extFlag now s hoffered hout
      rw [hr] at hloaded
      simp [notLoaded] at hloaded
    | broken =>
      obtain ⟨s', -, hr⟩ := tryLoadText_broken extFlag now s hoffered hout
      rw [hr] at hloaded
      simp [notLoaded] at hloaded

variable {kc : Store}

theorem tryLoadText_intact_pos {d : Dir} {e : Entry} {rest : List Entry} (now : ℕ)
    (s : State Tok Log) (h : offered sha1 kc eng prompt d = e :: rest)
    (hout : outcome sha1 eng prompt d e = .intact) :
    0 < (tryLoadText sha1 kc eng extFlag now prompt d s).tokens := by
  obtain ⟨file, hdr, textBytes, -, hcheck, htokens, -⟩ := tryLoadText_intact extFlag now s h hout
  have hpos := (readHeader_fits (checkFile_spec hcheck).header).1.tokens.1
  rw [htokens]
  exact_mod_cast hpos

theorem tryLoadText_failsClean (now : ℕ) (kc : Store) (d : Dir) (s : State Tok Log) :
    FailsClean s (tryLoadText sha1 kc eng extFlag now prompt d s) := by
  intro hfailed
  cases hoffered : offered sha1 kc eng prompt d with
  | nil =>
    rw [tryLoadText_eq, hoffered]
    exact .inl rfl
  | cons e rest =>
    cases hout : outcome sha1 eng prompt d e with
    | intact =>
      have hpos : 0 < (tryLoadText sha1 kc eng extFlag now prompt d s).tokens :=
        tryLoadText_intact_pos now s hoffered hout
      omega
    | miscounted =>
      obtain ⟨s', hvalid, hempty, hr⟩ := tryLoadText_miscounted extFlag now s hoffered hout
      rw [hr]
      exact .inr ⟨hvalid, hempty⟩
    | broken =>
      obtain ⟨s', hs', hr⟩ := tryLoadText_broken extFlag now s hoffered hout
      rw [hr]
      exact hs'

theorem offered_nodup (kc : Store) (d : Dir) :
    ((offered sha1 kc eng prompt d).map Entry.name).Nodup := by
  unfold offered
  split
  · apply ((ranked_perm _).map Entry.name).nodup_iff.mpr
    exact (filter_sublist.map Entry.name).nodup d.refresh_nodup
  · simp

theorem Queued.unlink {d : Dir} {b e : Entry} {before after : List Entry}
    (h : Queued sha1 eng prompt kc d (b :: before) e after) :
    Queued sha1 eng prompt kc (d.unlink b.name) before e after ∧
      outcome sha1 eng prompt (d.unlink b.name) e = outcome sha1 eng prompt d e := by
  have hnodup : ((Kvstore.offered sha1 kc eng prompt d).map Entry.name).Nodup := offered_nodup kc d
  rw [h.offered, cons_append, map_cons, nodup_cons] at hnodup
  have hother : ∀ a ∈ before ++ e :: after, a.name ≠ b.name := by
    intro a ha hname
    apply hnodup.1
    rw [← hname]
    exact List.mem_map_of_mem ha
  refine ⟨⟨offered_unlink h.offered, fun a ha => ?_⟩, outcome_unlink (hother e (by simp))⟩
  rw [outcome_unlink (hother a (mem_append_left _ ha))]
  exact h.before a (mem_cons_of_mem _ ha)

/-- Entries that fail by their token count are unlinked one after the other. -/
theorem retry_intact {before after : List Entry} {e : Entry} (now : ℕ → ℕ) (d : Dir)
    (s : State Tok Log) (h : Queued sha1 eng prompt kc d before e after)
    (hout : outcome sha1 eng prompt d e = .intact) :
    0 < (retry sha1 eng extFlag prompt now before.length kc d s).tokens := by
  induction before generalizing now d s with
  | nil => exact tryLoadText_intact_pos (now 0) s h.offered hout
  | cons b before ih =>
    obtain ⟨s', -, -, hr⟩ :=
      tryLoadText_miscounted extFlag (now 0) s h.offered (h.before b mem_cons_self)
    obtain ⟨hnext, hsame⟩ := h.unlink
    rw [length_cons, retry, hr]
    exact ih _ (d.unlink b.name) s' hnext (hsame.trans hout)

theorem retry_broken {before after : List Entry} {e : Entry} (n : ℕ) (now : ℕ → ℕ) (d : Dir)
    (s : State Tok Log) (h : Queued sha1 eng prompt kc d before e after)
    (hout : outcome sha1 eng prompt d e = .broken) :
    (retry sha1 eng extFlag prompt now n kc d s).tokens ≤ 0 := by
  induction n generalizing now d s before with
  | zero =>
    cases before with
    | nil =>
      obtain ⟨s', -, hr⟩ := tryLoadText_broken extFlag (now 0) s h.offered hout
      rw [retry, hr]
      exact Int.le_refl 0
    | cons b before =>
      obtain ⟨s', -, -, hr⟩ :=
        tryLoadText_miscounted extFlag (now 0) s h.offered (h.before b mem_cons_self)
      rw [retry, hr]
      exact Int.le_refl 0
  | succ n ih =>
    cases before with
    | nil =>
      obtain ⟨s', -, hr⟩ := tryLoadText_broken extFlag (now 0) s h.offered hout
      rw [retry, hr]
      exact ih _ d s' h hout
    | cons b before =>
      obtain ⟨s', -, -, hr⟩ :=
        tryLoadText_miscounted extFlag (now 0) s h.offered (h.before b mem_cons_self)
      obtain ⟨hnext, hsame⟩ := h.unlink
      rw [retry, hr]
      exact ih _ (d.unlink b.name) s' hnext (hsame.trans hout)

/-- The entries in front of the first one that does not fail by its token count. -/
theorem exists_queued (kc : Store) (d : Dir)
    (h : ∃ e ∈ offered sha1 kc eng prompt d, outcome sha1 eng prompt d e ≠ .miscounted) :
    ∃ before e after, Queued sha1 eng prompt kc d before e after ∧
      outcome sha1 eng prompt d e ≠ .miscounted := by
  obtain ⟨e, hmem, hout⟩ := h
  have hfind : ((offered sha1 kc eng prompt d).find?
      fun a => outcome sha1 eng prompt d a ≠ .miscounted).isSome = true :=
    find?_isSome.mpr ⟨e, hmem, by simpa using hout⟩
  obtain ⟨first, hfirst⟩ := isSome_iff_exists.mp hfind
  obtain ⟨hne, before, after, hsplit, hbefore⟩ := find?_eq_some_iff_append.mp hfirst
  refine ⟨before, first, after, ⟨hsplit, fun b hb => ?_⟩, by simpa using hne⟩
  simpa using hbefore b hb

theorem fallsBack_iff (now : ℕ → ℕ) (kc : Store) (d : Dir) (s : State Tok Log) :
    FallsBack sha1 eng extFlag prompt now kc d s ↔ IntactFirst sha1 eng prompt kc d := by
  constructor
  · intro hfalls hintact
    obtain ⟨a, ha, hout⟩ := hintact
    obtain ⟨before, e, after, hqueued, hne⟩ := exists_queued kc d ⟨a, ha, by rw [hout]; simp⟩
    refine ⟨before, e, after, hqueued, ?_⟩
    cases hbroken : outcome sha1 eng prompt d e with
    | intact => rfl
    | miscounted => exact absurd hbroken hne
    | broken =>
      have hnever : ∀ n, (retry sha1 eng extFlag prompt now n kc d s).tokens ≤ 0 :=
        fun n => retry_broken n now d s hqueued hbroken
      obtain ⟨n, hn⟩ := hfalls (hnever 0) ⟨a, ha, hout⟩
      exact absurd hn (Int.not_lt.mpr (hnever n))
  · intro hfirst _ hintact
    obtain ⟨before, e, after, hqueued, hout⟩ := hfirst hintact
    exact ⟨before.length, retry_intact now d s hqueued hout⟩

/-- Every load is of a prefix and fails clean, and an unusable entry hides no
usable one exactly where the entries that lookups prefer to the first intact one
fail by their token count alone. -/
theorem loadContract_iff (now : ℕ → ℕ) (kc : Store) (d : Dir) (s : State Tok Log) :
    LoadContract sha1 eng extFlag prompt now kc d s ↔ IntactFirst sha1 eng prompt kc d := by
  constructor
  · intro h
    exact (fallsBack_iff now kc d s).mp h.fallsBack
  · intro h
    exact ⟨tryLoadText_loadsPrefix (now 0) kc d s, tryLoadText_failsClean (now 0) kc d s,
      (fallsBack_iff now kc d s).mpr h⟩

end Requests

/-! ### A broken file in front of an intact one -/

/-- The digests of the two prefixes of `ab`. -/
def abDigest (text : Bytes) : Bytes :=
  if text = str "ab" then str "da23614e02469a0d7c7bd1bdab5c9c474b1904dc"
  else if text = str "a" then str "86f7e437faa5a7fce15d1ddcb9eaeaea377667b8"
  else []

def abHeader : Header := ⟨0, 2, 1, 0, 1, 0, 8, 0, 0, 4⟩

/-- A file with one token and a payload of four bytes. -/
def abFile (text payload : Bytes) : Bytes × Bytes :=
  (pathForSha (abDigest text),
    fillHeader abHeader ++ LittleEndian.put 4 text.length ++ text ++ payload)

def abDir : Dir where
  files := [abFile (str "a") (str "good"), abFile (str "ab") (str "torn")]
  nodup := by decide

def abStore : Store := ⟨true, 2 ^ 20, false, ⟨1, 0⟩, 0⟩

/-- An engine that refuses payloads with the wrong magic. -/
def abEngine : Engine ℕ ℕ where
  modelId := 0
  quantBits := 2
  ctxSize := 8
  tokenizeRenderedChat := fun text => text.map UInt8.toNat
  tokenText := fun t => [UInt8.ofNat t]
  loadPayload := fun _ body =>
    if str "good" <+: body then (⟨[97], some 1, some [97]⟩, none)
    else (⟨[], none, none⟩, some .header)

def abEntry (text : Bytes) : Entry :=
  ⟨abDigest text, pathForSha (abDigest text), abHeader, text.length, 56 + text.length⟩

theorem abDir_offered :
    offered abDigest abStore abEngine (str "ab") abDir = [abEntry (str "ab"), abEntry (str "a")] := by
  decide

/-- The longer file never loads and is never removed, and the shorter one is never tried. -/
theorem loadContract_tornFile :
    ¬ LoadContract abDigest abEngine 1 (str "ab") (fun n => n) abStore abDir State.created := by
  intro h
  have hqueued : Queued abDigest abEngine (str "ab") abStore abDir [] (abEntry (str "ab"))
      [abEntry (str "a")] := ⟨abDir_offered, by simp⟩
  have htorn : outcome abDigest abEngine (str "ab") abDir (abEntry (str "ab")) = .broken := by
    decide
  have hgood : outcome abDigest abEngine (str "ab") abDir (abEntry (str "a")) = .intact := by decide
  have hnever : ∀ n, (retry abDigest abEngine 1 (str "ab") (fun n => n) n abStore abDir
      State.created).tokens ≤ 0 :=
    fun n => retry_broken n (fun n => n) abDir State.created hqueued htorn
  obtain ⟨n, hn⟩ := h.fallsBack (hnever 0) ⟨abEntry (str "a"), by rw [abDir_offered]; simp, hgood⟩
  exact absurd hn (Int.not_lt.mpr (hnever n))

end Ds4Studio.Kvstore
