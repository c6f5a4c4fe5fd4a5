import Ds4Studio.Kvstore.Load
import Ds4Studio.Kvstore.ToolMap

/-!
Storing checkpoints and the size of the directory. A fresh store makes room for
the file it is about to write; a text that is already present only gets a new
trailer. The order in which entries are evicted comes from floating-point
scores, which are a parameter here.
-/

namespace Ds4Studio.Kvstore

open Bytes List LittleEndian Option Session

variable {Tok Log Score : Type*}

/-- `DS4_KVSTORE_DEFAULT_MB` -/
def defaultMb : ℕ := 4096

/-- `kv_cache_file_size_bytes` -/
def fileSizeBytes (textBytes payloadBytes trailerBytes : ℕ) : Option ℕ :=
  let size := fixedHeader + 4 + textBytes + payloadBytes + trailerBytes
  if 2 ^ 64 ≤ size then none else some size

/-- `kv_cache_budget_required` -/
def budgetRequired (fileBytes : ℕ) : Option ℕ :=
  let slack := fileBytes / 100 + if fileBytes % 100 ≠ 0 then 1 else 0
  if 2 ^ 64 ≤ fileBytes + slack then none else some (fileBytes + slack)

/-- `ds4_kvstore_file_size_fits`: the size of the file, if it fits. -/
def fileSizeFits (kc : Store) (textBytes payloadBytes trailerBytes : ℕ) : Option ℕ :=
  match fileSizeBytes textBytes payloadBytes trailerBytes with
  | none => none
  | some fileBytes =>
      if kc.budgetBytes = 0 then some fileBytes
      else
        match budgetRequired fileBytes with
        | none => none
        | some required => if required ≤ kc.budgetBytes then some fileBytes else none

/-! ### Eviction -/

/-- `ds4_kvstore_eviction_context` -/
structure Incoming where
  text : Bytes
  modelId : UInt8
  quantBits : UInt8
  ctxSize : ℕ
  rejectDifferentQuant : Bool

section Evict

variable [LT Score] [DecidableLT Score] [DecidableEq Score]

/-- The loop that picks the entry with the lowest score, the least recently used
one among equals. -/
def pickVictim (score : Entry → Score) (first : Entry) (rest : List Entry) : Entry :=
  rest.foldl
    (fun victim e =>
      if score e < score victim ∨
          (score e = score victim ∧ e.header.lastUsed < victim.header.lastUsed) then e
      else victim)
    first

/-- The loop of `ds4_kvstore_evict`; the first number bounds the entries left. -/
def evictLoop (score : Entry → Score) (target : ℕ) : ℕ → ℕ → List Entry → Dir → Dir
  | fuel + 1, total, first :: rest, d =>
      if target < total then
        let victim := pickVictim score first rest
        evictLoop score target fuel
          (if victim.fileSize ≤ total then total - victim.fileSize else 0)
          ((first :: rest).filter fun e => e.name ≠ victim.name) (d.unlink victim.name)
      else d
  | _, _, _, d => d

/-- `ds4_kvstore_evict` -/
def evict (score : Entry → Score) (kc : Store) (extraBytes : ℕ) (d : Dir) : Dir :=
  if kc.enabled = false ∨ kc.budgetBytes = 0 then d
  else if kc.budgetBytes < extraBytes then d
  else
    let entries := d.refresh
    evictLoop score (kc.budgetBytes - extraBytes) entries.length
      ((entries.map Entry.fileSize).sum % 2 ^ 64) entries d

/-- `ds4_kvstore_open` of a directory that exists or could be created. -/
def openStore (score : Entry → Score) (budgetMb : ℕ) (rejectDifferentQuant : Bool)
    (opt : Options) (d : Dir) : Store × Dir :=
  let mb := if budgetMb = 0 then defaultMb else budgetMb
  let kc : Store := ⟨true, mb * 2 ^ 20 % 2 ^ 64, rejectDifferentQuant, opt, 0⟩
  (kc, evict score kc 0 d)

end Evict

/-! ### Stores -/

/-- What a store is asked for. The staged payload is what the session serializes,
if it can. -/
structure StoreRequest (Tok : Type*) where
  tokens : List Tok
  storeLen : ℤ
  reason : UInt8
  cacheTextOverride : Bytes
  cacheTextExt : UInt8
  live : List Tok
  staged : Option Bytes

/-- The tool memory as a source of trailers: `kv_cache_tool_map_hooks`. -/
structure Hooks where
  extFlag : UInt8
  disabled : Bool
  mem : ToolMemory

/-- `kv_cache_file_text_matches` -/
def fileTextMatches (sha1 : Bytes → Bytes) (sha text file : Bytes) : Bool :=
  match readHeader file with
  | none => false
  | some (_, textBytes) =>
      let stored := (file.drop (fixedHeader + 4)).take textBytes
      decide (text.length < 2 ^ 32) && decide (textBytes = text.length) &&
        decide (stored.length = textBytes) && decide (sha1 stored = sha) && decide (stored = text)

/-- The entry a store finds under the name of its text, if it can be kept. -/
def existingEntry (sha1 : Bytes → Bytes) (kc : Store) (eng : Engine Tok Log) (d : Dir)
    (sha text : Bytes) : Option Entry :=
  match d.read (pathForSha sha) with
  | none => none
  | some file =>
      match readEntryFile (pathForSha sha) sha file with
      | none => none
      | some e =>
          if decide (e.header.modelId = UInt8.ofNat eng.modelId) &&
              !(kc.rejectDifferentQuant && decide (e.header.quantBits ≠ UInt8.ofNat eng.quantBits)) &&
              decide (e.header.ctxSize ≤ eng.ctxSize) && fileTextMatches sha1 sha text file then
            some e
          else none

/-- `kv_cache_existing_compatible`: whether a file of the text can be kept. One
that reads as an entry but cannot be kept is unlinked. -/
def existingCompatible (sha1 : Bytes → Bytes) (kc : Store) (eng : Engine Tok Log) (d : Dir)
    (sha text : Bytes) : Bool × Dir :=
  match existingEntry sha1 kc eng d sha text with
  | some _ => (true, d)
  | none =>
      match d.read (pathForSha sha) with
      | none => (false, d)
      | some file =>
          match readEntryFile (pathForSha sha) sha file with
          | none => (false, d)
          | some _ => (false, d.unlink (pathForSha sha))

/-- The rewritten bytes of a file whose trailer is replaced. -/
def retrailFile (extFlag : UInt8) (now : ℕ) (trailer file : Bytes) : Bytes :=
  match readHeader file with
  | none => file
  | some (hdr, textBytes) =>
      let kept := file.take (payloadEnd textBytes hdr.payloadBytes) ++ trailer
      if trailer.isEmpty then kept
      else
        fillHeader { hdr with extFlags := hdr.extFlags ||| extFlag, lastUsed := now } ++
          kept.drop fixedHeader

/-- `kv_cache_rewrite_trailer` -/
def rewriteTrailer (hooks : Hooks) (now : ℕ) (d : Dir) (path text : Bytes) : Dir :=
  match kvToolMapSerializedSize hooks.disabled hooks.mem text with
  | none => d
  | some trailerEst =>
      if trailerEst = 0 then d
      else
        match kvToolMapWrite hooks.disabled hooks.mem text with
        | none => d
        | some trailer => d.rewrite path (retrailFile hooks.extFlag now trailer)

/-- The text under which a store files a checkpoint. -/
def storeText (eng : Engine Tok Log) (q : StoreRequest Tok) : Bytes :=
  if q.cacheTextOverride = [] then
    (q.tokens.take q.storeLen.toNat).flatMap eng.tokenText
  else q.cacheTextOverride

/-- A file as a store lays it out. -/
def layOut (h : Header) (text payload trailer : Bytes) : Bytes :=
  fillHeader h ++ (put 4 text.length ++ (text ++ (payload ++ trailer)))

/-- The bytes of a fresh file. -/
def freshFile (eng : Engine Tok Log) (hooks : Hooks) (now : ℕ) (q : StoreRequest Tok)
    (trailerEst : ℕ) (text payload trailer : Bytes) : Bytes :=
  let ext := if trailerEst = 0 then 0 else hooks.extFlag
  layOut
    { modelId := UInt8.ofNat eng.modelId
      quantBits := UInt8.ofNat eng.quantBits
      reason := q.reason
      extFlags := if q.cacheTextOverride = [] then ext else ext ||| q.cacheTextExt
      tokens := (q.tokens.take q.storeLen.toNat).length
      hits := 0
      ctxSize := eng.ctxSize
      createdAt := now
      lastUsed := now
      payloadBytes := payload.length }
    text payload trailer

/-- Whether a store gets as far as looking for the text: the prefix is long
enough, the model is one the cache knows and the session is at that prefix. -/
def storable [DecidableEq Tok] (kc : Store) (eng : Engine Tok Log) (q : StoreRequest Tok) : Bool :=
  kc.enabled && decide (kc.opt.minTokens ≤ q.storeLen) &&
    (decide (eng.quantBits = 2) || decide (eng.quantBits = 4)) &&
    decide (q.live = q.tokens.take q.storeLen.toNat) &&
    decide ((storeText eng q).length < 2 ^ 32)

/-- `ds4_kvstore_store_live_prefix_text` -/
def storeLivePrefixText [DecidableEq Tok] [LT Score] [DecidableLT Score] [DecidableEq Score]
    (sha1 : Bytes → Bytes) (score : Option Incoming → ℕ → Entry → Score) (kc : Store)
    (eng : Engine Tok Log) (hooks : Hooks) (now : ℕ) (q : StoreRequest Tok) (d : Dir) :
    Bool × Dir :=
  if storable kc eng q = false then (false, d)
  else
    let text := storeText eng q
    match kvToolMapSerializedSize hooks.disabled hooks.mem text with
    | none => (false, d)
    | some trailerEst =>
        let sha := sha1 text
        let path := pathForSha sha
        let (compatible, d) := existingCompatible sha1 kc eng d sha text
        if compatible then (true, rewriteTrailer hooks now d path text)
        else
          match q.staged with
          | none => (false, d)
          | some payload =>
              match fileSizeFits kc text.length payload.length trailerEst with
              | none => (false, d)
              | some estBytes =>
                  let incoming : Incoming :=
                    ⟨text, UInt8.ofNat eng.modelId, UInt8.ofNat eng.quantBits, eng.ctxSize,
                      kc.rejectDifferentQuant⟩
                  let d := evict (score (some incoming) now) kc estBytes d
                  match kvToolMapWrite hooks.disabled hooks.mem text with
                  | none => (false, d)
                  | some trailer =>
                      match fileSizeFits kc text.length payload.length trailer.length with
                      | none => (false, d)
                      | some _ =>
                          (true,
                            d.put path (freshFile eng hooks now q trailerEst text payload trailer))

/-! ### The size of a directory -/

/-- The sum of the sizes of the valid entries. -/
def validBytes (d : Dir) : ℕ := (d.refresh.map Entry.fileSize).sum

/-- What a file adds to it. -/
def fileBytes (f : Bytes × Bytes) : ℕ :=
  match scanFile f with
  | none => 0
  | some e => e.fileSize

theorem fileBytes_le (f : Bytes × Bytes) : fileBytes f ≤ f.2.length := by
  unfold fileBytes
  split
  · exact Nat.zero_le _
  · rename_i e hscan
    exact le_of_eq (scanFile_spec hscan).2.1

theorem validBytes_eq (d : Dir) : validBytes d = (d.files.map fileBytes).sum := by
  unfold validBytes Dir.refresh
  induction d.files with
  | nil => rfl
  | cons f rest ih =>
    cases hscan : scanFile f with
    | none => simp [hscan, fileBytes, ih]
    | some e => simp [hscan, fileBytes, ih]

theorem sum_filter_name (files : List (Bytes × Bytes)) (name file : Bytes)
    (hnodup : (files.map Prod.fst).Nodup) (hmem : (name, file) ∈ files) (size : Bytes × Bytes → ℕ) :
    (files.map size).sum =
      ((files.filter fun f => f.1 ≠ name).map size).sum + size (name, file) := by
  induction files with
  | nil => simp at hmem
  | cons f rest ih =>
    rw [map_cons, nodup_cons] at hnodup
    rcases mem_cons.mp hmem with heq | hrest
    · have hkeep : rest.filter (fun g => decide (g.1 ≠ name)) = rest := by
        rw [filter_eq_self]
        intro g hg
        have hne : g.1 ≠ name := by
          intro hname
          have hin : g.1 ∈ rest.map Prod.fst := mem_map_of_mem (f := Prod.fst) hg
          rw [hname, show name = f.1 by rw [← heq]] at hin
          exact hnodup.1 hin
        simpa using hne
      rw [filter_cons_of_neg (by simp [← heq]), hkeep, ← heq]
      exact Nat.add_comm _ _
    · have hne : f.1 ≠ name := by
        intro hname
        apply hnodup.1
        rw [hname]
        exact mem_map_of_mem (f := Prod.fst) hrest
      rw [filter_cons_of_pos (by simpa using hne), map_cons, map_cons,
        sum_cons, sum_cons, ih hnodup.2 hrest]
      omega

variable {file name : Bytes} {d : Dir}

theorem validBytes_unlink (h : (name, file) ∈ d.files) :
    validBytes d = validBytes (d.unlink name) + fileBytes (name, file) := by
  rw [validBytes_eq, validBytes_eq]
  exact sum_filter_name d.files name file d.nodup h fileBytes

theorem unlink_of_not_mem (h : d.read name = none) : (d.unlink name).files = d.files := by
  unfold Dir.unlink
  rw [filter_eq_self]
  intro f hf
  have hne : f.1 ≠ name := by
    intro hname
    have := Dir.read_of_mem hf
    rw [hname, h] at this
    contradiction
  simpa using hne

theorem validBytes_unlink_le (d : Dir) (name : Bytes) :
    validBytes (d.unlink name) ≤ validBytes d := by
  cases hread : d.read name with
  | none => rw [validBytes_eq, validBytes_eq, unlink_of_not_mem hread]
  | some file =>
    rw [validBytes_unlink (Dir.mem_of_read hread)]
    exact Nat.le_add_right _ _

theorem validBytes_put_le (d : Dir) (name file : Bytes) :
    validBytes (d.put name file) ≤ validBytes (d.unlink name) + file.length := by
  have hsize := fileBytes_le (name, file)
  rw [validBytes_eq, validBytes_eq]
  unfold Dir.put
  simp only [map_append, map_cons, map_nil, sum_append, sum_cons, sum_nil]
  simp only at hsize
  omega

theorem unlink_rewrite (d : Dir) (name : Bytes) (edit : Bytes → Bytes) :
    ((d.rewrite name edit).unlink name).files = (d.unlink name).files := by
  unfold Dir.rewrite Dir.unlink
  simp only
  rw [List.filter_map]
  have hsame : ∀ f ∈ d.files.filter (fun f => decide (f.1 ≠ name)),
      (if f.1 = name then (f.1, edit f.2) else f) = f := by
    intro f hf
    have hne : f.1 ≠ name := by simpa using (mem_filter.mp hf).2
    rw [if_neg hne]
  have hfilter : (fun f => decide (f.1 ≠ name)) ∘
      (fun f : Bytes × Bytes => if f.1 = name then (f.1, edit f.2) else f) =
      fun f => decide (f.1 ≠ name) := by
    funext f
    simp only [Function.comp]
    split <;> simp_all
  rw [hfilter]
  exact (map_congr_left hsame).trans (map_id _)

theorem validBytes_rewrite_le (h : d.read name = some file) (edit : Bytes → Bytes) :
    validBytes (d.rewrite name edit) ≤ validBytes (d.unlink name) + (edit file).length := by
  have hmem : (name, edit file) ∈ (d.rewrite name edit).files := by
    refine mem_map.mpr ⟨(name, file), Dir.mem_of_read h, ?_⟩
    rw [if_pos rfl]
  have hsize := fileBytes_le (name, edit file)
  rw [validBytes_unlink hmem, validBytes_eq, validBytes_eq, unlink_rewrite]
  simp only at hsize
  omega

/-! ### Making room -/

section Room

variable [LT Score] [DecidableLT Score] [DecidableEq Score] (score : Entry → Score)

theorem pickVictim_mem (first : Entry) (rest : List Entry) :
    pickVictim score first rest ∈ first :: rest := by
  unfold pickVictim
  induction rest generalizing first with
  | nil => simp
  | cons e rest ih =>
    rw [foldl_cons]
    rcases mem_cons.mp (ih (if score e < score first ∨
        score e = score first ∧ e.header.lastUsed < first.header.lastUsed then e else first)) with
      heq | hmem
    · rw [heq]
      split <;> simp
    · exact mem_cons_of_mem _ (mem_cons_of_mem _ hmem)

theorem validBytes_unlink_entry {d : Dir} {e : Entry} (h : e ∈ d.refresh) :
    validBytes d = validBytes (d.unlink e.name) + e.fileSize := by
  obtain ⟨file, hread, hscan⟩ := Dir.mem_refresh h
  rw [validBytes_unlink (Dir.mem_of_read hread)]
  unfold fileBytes
  rw [hscan]

theorem evictLoop_le (target fuel : ℕ) (d : Dir)
    (hfuel : d.refresh.length ≤ fuel) :
    validBytes (evictLoop score target fuel (validBytes d) d.refresh d) ≤ target := by
  induction fuel generalizing d with
  | zero =>
    have hnone : d.refresh = [] := length_eq_zero_iff.mp (Nat.le_zero.mp hfuel)
    simp [hnone, evictLoop, validBytes]
  | succ fuel ih =>
    cases hentries : d.refresh with
    | nil => simp [evictLoop, validBytes, hentries]
    | cons first rest =>
      rw [evictLoop]
      split
      · have hmem := pickVictim_mem score first rest
        rw [← hentries] at hmem ⊢
        have hsize := validBytes_unlink_entry hmem
        have hlast : validBytes d - (pickVictim score first rest).fileSize =
            validBytes (d.unlink (pickVictim score first rest).name) := by omega
        simp only
        rw [if_pos (by omega), hlast, ← Dir.refresh_unlink]
        apply ih
        rw [Dir.refresh_unlink]
        have hlt : (d.refresh.filter
            fun e => e.name ≠ (pickVictim score first rest).name).length < d.refresh.length := by
          apply length_filter_lt_length_iff_exists.mpr
          exact ⟨_, hmem, by simp⟩
        omega
      · rename_i hfits
        exact not_lt.mp hfits

variable {kc : Store}

theorem evict_of_fits {extraBytes : ℕ} {d : Dir}
    (hsum : validBytes d < 2 ^ 64) (hfits : validBytes d ≤ kc.budgetBytes - extraBytes) :
    evict score kc extraBytes d = d := by
  unfold evict
  split
  · rfl
  split
  · rfl
  simp only
  rw [show (d.refresh.map Entry.fileSize).sum % 2 ^ 64 = validBytes d from Nat.mod_eq_of_lt hsum]
  unfold evictLoop
  split
  · rw [if_neg (not_lt.mpr hfits)]
  · rfl

theorem evict_le {extraBytes : ℕ} {d : Dir}
    (henabled : kc.enabled = true) (hbudget : kc.budgetBytes ≠ 0)
    (hextra : extraBytes ≤ kc.budgetBytes) (hsum : validBytes d < 2 ^ 64) :
    validBytes (evict score kc extraBytes d) + extraBytes ≤ kc.budgetBytes := by
  unfold evict
  rw [if_neg (by simp [henabled, hbudget]), if_neg (not_lt.mpr hextra)]
  simp only
  have hmod : (d.refresh.map Entry.fileSize).sum % 2 ^ 64 = validBytes d := Nat.mod_eq_of_lt hsum
  rw [hmod]
  have := evictLoop_le score (kc.budgetBytes - extraBytes) d.refresh.length d le_rfl
  omega

end Room

/-! ### One store, one load -/

theorem le_budgetRequired {fileBytes required : ℕ}
    (h : budgetRequired fileBytes = some required) : fileBytes ≤ required := by
  simp only [budgetRequired, ite_none_left_eq_some, some.injEq] at h
  omega

theorem fileSizeFits_spec {textBytes payloadBytes trailerBytes size : ℕ}
    (h : fileSizeFits kc textBytes payloadBytes trailerBytes = some size) :
    size = fixedHeader + 4 + textBytes + payloadBytes + trailerBytes ∧
      (kc.budgetBytes ≠ 0 → size ≤ kc.budgetBytes) := by
  unfold fileSizeFits fileSizeBytes at h
  simp only at h
  split at h
  · contradiction
  rename_i fileBytes hbytes
  split at hbytes
  · contradiction
  obtain rfl := some.inj hbytes
  split at h
  · rename_i hzero
    exact ⟨(some.inj h).symm, fun hbudget => absurd hzero hbudget⟩
  split at h
  · contradiction
  rename_i required hrequired
  split at h
  · rename_i hfits
    obtain rfl := some.inj h
    exact ⟨rfl, fun _ => le_trans (le_budgetRequired hrequired) hfits⟩
  · contradiction

theorem layOut_length (h : Header) (text payload trailer : Bytes) :
    (layOut h text payload trailer).length =
      payloadEnd text.length payload.length + trailer.length := by
  simp only [layOut, payloadEnd, length_append, fillHeader_length, put_length]
  omega

theorem freshFile_length (eng : Engine Tok Log) (hooks : Hooks) (now : ℕ) (q : StoreRequest Tok)
    (trailerEst : ℕ) (text payload trailer : Bytes) :
    (freshFile eng hooks now q trailerEst text payload trailer).length =
      payloadEnd text.length payload.length + trailer.length :=
  layOut_length _ text payload trailer

theorem retrailFile_length (extFlag : UInt8) (now : ℕ) (trailer : Bytes) {hdr : Header}
    {textBytes : ℕ} (hread : readHeader file = some (hdr, textBytes))
    (hend : payloadEnd textBytes hdr.payloadBytes ≤ file.length) :
    (retrailFile extFlag now trailer file).length =
      payloadEnd textBytes hdr.payloadBytes + trailer.length := by
  have hkept : (file.take (payloadEnd textBytes hdr.payloadBytes) ++ trailer).length =
      payloadEnd textBytes hdr.payloadBytes + trailer.length := by
    rw [length_append, length_take, Nat.min_eq_left hend]
  unfold retrailFile
  rw [hread]
  simp only
  split
  · exact hkept
  · rw [length_append, fillHeader_length, length_drop, hkept]
    unfold payloadEnd
    omega

theorem readEntryFile_layOut {h : Header} (hfits : h.Fits) (name sha : Bytes) {text payload : Bytes}
    (trailer : Bytes) (htext : text.length < 2 ^ 32) (hpayload : h.payloadBytes = payload.length)
    (hsize : payloadEnd text.length payload.length < 2 ^ 64) :
    readEntryFile name sha (layOut h text payload trailer) =
      some ⟨sha, name, h, text.length, (layOut h text payload trailer).length⟩ := by
  have hlen := layOut_length h text payload trailer
  unfold readEntryFile
  rw [show readHeader (layOut h text payload trailer) = some (h, text.length) from
    readHeader_fillHeader hfits htext _]
  simp only
  rw [hpayload, if_neg (by omega)]

variable {sha1 : Bytes → Bytes}

theorem fileTextMatches_layOut {h : Header} (hfits : h.Fits)
    {text : Bytes} (payload trailer : Bytes) (htext : text.length < 2 ^ 32) :
    fileTextMatches sha1 (sha1 text) text (layOut h text payload trailer) = true := by
  have hstored : ((layOut h text payload trailer).drop (fixedHeader + 4)).take text.length =
      text := by
    rw [← drop_drop, layOut, drop_left' (fillHeader_length h),
      drop_left' (put_length 4 _), take_left' rfl]
  unfold fileTextMatches
  rw [show readHeader (layOut h text payload trailer) = some (h, text.length) from
    readHeader_fillHeader hfits htext _]
  simp only [hstored]
  simpa using htext

theorem retrailFile_layOut {h : Header} (hfits : h.Fits) (extFlag : UInt8) (now : ℕ)
    {text payload : Bytes} (trailer : Bytes) {next : Bytes} (htext : text.length < 2 ^ 32)
    (hpayload : h.payloadBytes = payload.length) (hnext : next ≠ []) :
    retrailFile extFlag now next (layOut h text payload trailer) =
      layOut { h with extFlags := h.extFlags ||| extFlag, lastUsed := now } text payload next := by
  have hkept : (layOut h text payload trailer).take (payloadEnd text.length payload.length) =
      fillHeader h ++ (put 4 text.length ++ (text ++ payload)) := by
    have hsplit : layOut h text payload trailer =
        (fillHeader h ++ (put 4 text.length ++ (text ++ payload))) ++ trailer := by
      simp only [layOut, append_assoc]
    rw [hsplit, take_left']
    simp only [payloadEnd, length_append, fillHeader_length, put_length]
    omega
  have hempty : next.isEmpty = false := by simpa using hnext
  unfold retrailFile
  rw [show readHeader (layOut h text payload trailer) = some (h, text.length) from
    readHeader_fillHeader hfits htext _]
  simp only [hpayload, hkept, hempty, Bool.false_eq_true, if_false]
  rw [append_assoc, drop_left' (fillHeader_length h)]
  simp only [layOut, append_assoc]

variable {e : Entry}

theorem existingEntry_spec {eng : Engine Tok Log}
    {sha text : Bytes} (h : existingEntry sha1 kc eng d sha text = some e) :
    ∃ file, d.read (pathForSha sha) = some file ∧
      readHeader file = some (e.header, e.textBytes) ∧
      payloadEnd e.textBytes e.header.payloadBytes ≤ file.length := by
  unfold existingEntry at h
  split at h
  · contradiction
  rename_i file hfile
  split at h
  · contradiction
  rename_i e' hentry
  split at h
  · obtain rfl := some.inj h
    unfold readEntryFile at hentry
    split at hentry
    · contradiction
    rename_i hdr textBytes hread
    simp only at hentry
    split at hentry
    · contradiction
    rename_i hsize
    obtain rfl := some.inj hentry
    exact ⟨file, hfile, hread, not_lt.mp (not_or.mp hsize).2⟩
  · contradiction

theorem existingCompatible_cases (sha1 : Bytes → Bytes) (kc : Store) (eng : Engine Tok Log)
    (d : Dir) (sha text : Bytes) :
    (∃ e, existingEntry sha1 kc eng d sha text = some e ∧
        existingCompatible sha1 kc eng d sha text = (true, d)) ∨
      ∃ d', existingCompatible sha1 kc eng d sha text = (false, d') ∧
        validBytes d' ≤ validBytes d := by
  unfold existingCompatible
  split
  · rename_i e he
    exact .inl ⟨e, he, rfl⟩
  · split
    · exact .inr ⟨d, rfl, le_rfl⟩
    · split
      · exact .inr ⟨d, rfl, le_rfl⟩
      · exact .inr ⟨_, rfl, validBytes_unlink_le d _⟩

/-- A text that is already present gets a trailer for which the budget has no room. -/
def Overgrows [DecidableEq Tok] (sha1 : Bytes → Bytes) (kc : Store) (eng : Engine Tok Log)
    (hooks : Hooks) (q : StoreRequest Tok) (d : Dir) : Prop :=
  storable kc eng q = true ∧
    ∃ e trailerEst, existingEntry sha1 kc eng d (sha1 (storeText eng q)) (storeText eng q) = some e ∧
      kvToolMapSerializedSize hooks.disabled hooks.mem (storeText eng q) = some trailerEst ∧
      trailerEst ≠ 0 ∧
      kc.budgetBytes < validBytes (d.unlink (pathForSha (sha1 (storeText eng q)))) +
        (payloadEnd e.textBytes e.header.payloadBytes + trailerEst)

theorem rewriteTrailer_le {hooks : Hooks} (now : ℕ) {path text : Bytes} {trailerEst : ℕ}
    (hsize : kvToolMapSerializedSize hooks.disabled hooks.mem text = some trailerEst)
    (hne : trailerEst ≠ 0) (hfile : d.read path = some file)
    (hread : readHeader file = some (e.header, e.textBytes))
    (hend : payloadEnd e.textBytes e.header.payloadBytes ≤ file.length) :
    validBytes (rewriteTrailer hooks now d path text) ≤
      validBytes (d.unlink path) + (payloadEnd e.textBytes e.header.payloadBytes + trailerEst) := by
  obtain ⟨trailer, hwrite, hlen⟩ := kvToolMapWrite_length hsize
  unfold rewriteTrailer
  rw [hsize, hwrite]
  simp only [hne, if_false]
  rw [← hlen, ← retrailFile_length hooks.extFlag now trailer hread hend]
  exact validBytes_rewrite_le hfile _

section Steps

variable [DecidableEq Tok] [LT Score] [DecidableLT Score] [DecidableEq Score]

theorem storeLivePrefixText_present
    (score : Option Incoming → ℕ → Entry → Score) {eng : Engine Tok Log}
    {hooks : Hooks} (now : ℕ) {q : StoreRequest Tok} {d : Dir} {e : Entry} {trailerEst : ℕ}
    (hstorable : storable kc eng q = true)
    (hest : kvToolMapSerializedSize hooks.disabled hooks.mem (storeText eng q) = some trailerEst)
    (hentry : existingEntry sha1 kc eng d (sha1 (storeText eng q)) (storeText eng q) = some e) :
    storeLivePrefixText sha1 score kc eng hooks now q d =
      (true, rewriteTrailer hooks now d (pathForSha (sha1 (storeText eng q)))
        (storeText eng q)) := by
  unfold storeLivePrefixText existingCompatible
  simp only [hstorable, Bool.true_eq_false, if_false, hest, hentry, if_true]

theorem storeLivePrefixText_le (sha1 : Bytes → Bytes)
    (score : Option Incoming → ℕ → Entry → Score) (eng : Engine Tok Log)
    (hooks : Hooks) (now : ℕ) (q : StoreRequest Tok) {d : Dir} (henabled : kc.enabled = true)
    (hbudget : kc.budgetBytes ≠ 0) (hwidth : kc.budgetBytes < 2 ^ 64)
    (hd : validBytes d ≤ kc.budgetBytes) (hroom : ¬ Overgrows sha1 kc eng hooks q d) :
    validBytes (storeLivePrefixText sha1 score kc eng hooks now q d).2 ≤ kc.budgetBytes := by
  by_cases hstorable : storable kc eng q = false
  · unfold storeLivePrefixText
    rw [if_pos hstorable]
    exact hd
  have hstored := Bool.not_eq_false _ ▸ hstorable
  cases hest : kvToolMapSerializedSize hooks.disabled hooks.mem (storeText eng q) with
  | none =>
    unfold storeLivePrefixText
    rw [if_neg hstorable]
    simp only [hest]
    exact hd
  | some trailerEst =>
    rcases existingCompatible_cases sha1 kc eng d (sha1 (storeText eng q)) (storeText eng q) with
      ⟨e, hentry, -⟩ | ⟨d', hreplaced, hle⟩
    · rw [storeLivePrefixText_present score now hstored hest hentry]
      simp only
      by_cases hempty : trailerEst = 0
      · unfold rewriteTrailer
        simp only [hest, hempty, if_true]
        exact hd
      · obtain ⟨file, hfile, hread, hend⟩ := existingEntry_spec hentry
        have hsize := rewriteTrailer_le now hest hempty hfile hread hend
        have hfits : ¬ kc.budgetBytes < validBytes (d.unlink (pathForSha (sha1 (storeText eng q)))) +
            (payloadEnd e.textBytes e.header.payloadBytes + trailerEst) :=
          fun hlt => hroom ⟨hstored, e, trailerEst, hentry, hest, hempty, hlt⟩
        omega
    · -- a fresh file, for which room was made
      unfold storeLivePrefixText
      rw [if_neg hstorable]
      simp only [hest, hreplaced, Bool.false_eq_true, if_false]
      have hd' : validBytes d' ≤ kc.budgetBytes := le_trans hle hd
      cases q.staged with
      | none => exact hd'
      | some payload =>
        simp only
        cases hfits : fileSizeFits kc (storeText eng q).length payload.length trailerEst with
        | none => exact hd'
        | some estBytes =>
          obtain ⟨hestBytes, hestFits⟩ := fileSizeFits_spec hfits
          have hevicted := evict_le (score (some ⟨storeText eng q, UInt8.ofNat eng.modelId,
            UInt8.ofNat eng.quantBits, eng.ctxSize, kc.rejectDifferentQuant⟩) now) henabled hbudget
            (hestFits hbudget) (lt_of_le_of_lt hd' hwidth)
          obtain ⟨trailer, hwrite, hlen⟩ := kvToolMapWrite_length hest
          simp only [hwrite]
          split
          · exact le_trans (Nat.le_add_right _ _) hevicted
          · apply le_trans (validBytes_put_le _ _ _)
            rw [freshFile_length, payloadEnd, hlen, ← hestBytes]
            exact le_trans (Nat.add_le_add_right (validBytes_unlink_le _ _) _) hevicted

end Steps

theorem loadFile_le {eng : Engine Tok Log} {extFlag : UInt8} {now : ℕ}
    {prompt : Bytes} {s : State Tok Log} {hdr : Header} {textBytes : ℕ} (hmem : e ∈ d.refresh)
    (hfile : d.read e.name = some file) :
    validBytes (loadFile kc eng extFlag now prompt d s e.name file hdr textBytes).dir ≤
      validBytes d := by
  unfold loadFile
  simp only
  split
  · split
    · simp only
      split
      · exact validBytes_unlink_le d _
      · obtain ⟨file', hfile', hscan⟩ := Dir.mem_refresh hmem
        obtain rfl := some.inj (hfile.symm.trans hfile')
        have hsize := validBytes_rewrite_le hfile (touchFile now (hdr.hits + 1))
        rw [touchFile_length] at hsize
        rw [validBytes_unlink_entry hmem, (scanFile_spec hscan).2.1]
        exact hsize
    · exact validBytes_unlink_le d _
  · exact le_rfl

theorem tryLoadText_le (sha1 : Bytes → Bytes) (kc : Store) (eng : Engine Tok Log)
    (extFlag : UInt8) (now : ℕ) (prompt : Bytes) (d : Dir) (s : State Tok Log) :
    validBytes (tryLoadText sha1 kc eng extFlag now prompt d s).dir ≤ validBytes d := by
  rw [tryLoadText_eq]
  split
  · exact le_rfl
  rename_i e hhead
  split
  · exact le_rfl
  rename_i file hfile
  split
  · exact le_rfl
  · exact loadFile_le (mem_offered (mem_of_head? hhead)).1 hfile

theorem tryLoadText_store (sha1 : Bytes → Bytes) (kc : Store) (eng : Engine Tok Log)
    (extFlag : UInt8) (now : ℕ) (prompt : Bytes) (d : Dir) (s : State Tok Log) :
    (tryLoadText sha1 kc eng extFlag now prompt d s).store.enabled = kc.enabled ∧
      (tryLoadText sha1 kc eng extFlag now prompt d s).store.budgetBytes = kc.budgetBytes := by
  rw [tryLoadText_eq]
  split
  · exact ⟨rfl, rfl⟩
  split
  · exact ⟨rfl, rfl⟩
  split
  · exact ⟨rfl, rfl⟩
  unfold loadFile
  simp only
  split
  · split <;> exact ⟨rfl, rfl⟩
  · exact ⟨rfl, rfl⟩

/-! ### Runs -/

/-- The operations on an open store. -/
inductive Op (Tok Log : Type*)
  | store (eng : Engine Tok Log) (hooks : Hooks) (now : ℕ) (q : StoreRequest Tok)
  | load (eng : Engine Tok Log) (extFlag : UInt8) (now : ℕ) (prompt : Bytes) (s : State Tok Log)

section Runs

variable [DecidableEq Tok] [LT Score] [DecidableLT Score] [DecidableEq Score]

def step (sha1 : Bytes → Bytes) (score : Option Incoming → ℕ → Entry → Score)
    (x : Store × Dir) : Op Tok Log → Store × Dir
  | .store eng hooks now q => (x.1, (storeLivePrefixText sha1 score x.1 eng hooks now q x.2).2)
  | .load eng extFlag now prompt s =>
      let r := tryLoadText sha1 x.1 eng extFlag now prompt x.2 s
      (r.store, r.dir)

/-- The states of a store whose operations satisfy a condition in the state they start from. -/
inductive Reached (sha1 : Bytes → Bytes) (score : Option Incoming → ℕ → Entry → Score)
    (may : Store × Dir → Op Tok Log → Prop) (opened : Store × Dir) : Store × Dir → Prop
  | opened : Reached sha1 score may opened opened
  | step {x : Store × Dir} (op : Op Tok Log) (hx : Reached sha1 score may opened x)
      (hop : may x op) : Reached sha1 score may opened (step sha1 score x op)

/-- A store of a text that is present and whose new trailer does not fit. -/
def Overflows (sha1 : Bytes → Bytes) (x : Store × Dir) : Op Tok Log → Prop
  | .store eng hooks _ q => Overgrows sha1 x.1 eng hooks q x.2
  | .load _ _ _ _ _ => False

/-- What a run keeps: the budget of the store, and room for the directory in it. -/
structure WithinBudget (budget : ℕ) (x : Store × Dir) : Prop where
  enabled : x.1.enabled = true
  budgetBytes : x.1.budgetBytes = budget
  room : validBytes x.2 ≤ budget

theorem step_withinBudget {score : Option Incoming → ℕ → Entry → Score}
    {budget : ℕ} (hbudget : budget ≠ 0) (hwidth : budget < 2 ^ 64) {x : Store × Dir}
    {op : Op Tok Log} (hx : WithinBudget budget x) (hop : ¬ Overflows sha1 x op) :
    WithinBudget budget (step sha1 score x op) := by
  obtain ⟨kc, d⟩ := x
  obtain ⟨henabled, rfl, hroom⟩ := hx
  cases op with
  | store eng hooks now q =>
    exact ⟨henabled, rfl,
      storeLivePrefixText_le sha1 score eng hooks now q henabled hbudget hwidth hroom hop⟩
  | load eng extFlag now prompt s =>
    obtain ⟨hstill, hsame⟩ := tryLoadText_store sha1 kc eng extFlag now prompt d s
    exact ⟨hstill.trans henabled, hsame,
      le_trans (tryLoadText_le sha1 kc eng extFlag now prompt d s) hroom⟩

/-- The entries of the directory stay within the budget in every run in which no
text that is already present gets a trailer that does not fit. -/
theorem reached_withinBudget {sha1 : Bytes → Bytes}
    {score : Option Incoming → ℕ → Entry → Score} {openScore : Entry → Score} {budgetMb : ℕ}
    {rejectDifferentQuant : Bool} {opt : Options} {d : Dir} {x : Store × Dir}
    (hbudget : (openStore openScore budgetMb rejectDifferentQuant opt d).1.budgetBytes ≠ 0)
    (hd : validBytes d < 2 ^ 64)
    (h : Reached sha1 score (fun y (op : Op Tok Log) => ¬ Overflows sha1 y op)
      (openStore openScore budgetMb rejectDifferentQuant opt d) x) :
    validBytes x.2 ≤ x.1.budgetBytes := by
  have hwidth : (openStore openScore budgetMb rejectDifferentQuant opt d).1.budgetBytes < 2 ^ 64 :=
    Nat.mod_lt _ (by decide)
  have hopened : WithinBudget
      (openStore openScore budgetMb rejectDifferentQuant opt d).1.budgetBytes
      (openStore openScore budgetMb rejectDifferentQuant opt d) :=
    ⟨rfl, rfl, le_trans (Nat.le_add_right _ _)
      (evict_le openScore rfl hbudget (Nat.zero_le _) hd)⟩
  have hx : WithinBudget (openStore openScore budgetMb rejectDifferentQuant opt d).1.budgetBytes
      x := by
    induction h with
    | opened => exact hopened
    | step _ _ hop ih => exact step_withinBudget hbudget hwidth ih hop
  rw [hx.budgetBytes]
  exact hx.room

end Runs

/-! ### A trailer without room -/

def emptyBlock : Bytes := str "<tool_calls></tool_calls>"

/-- The digest of the block. -/
def blockDigest (_ : Bytes) : Bytes := str "fae3b210e0ee2d317f4c386abfb50edeaf256531"

def blockHooks : Hooks := ⟨1, false, [⟨emptyBlock, [str "1"]⟩]⟩

def bigHeader : Header := ⟨0, 2, 1, 0, 1, 0, 8, 0, 0, 2 ^ 20 - 100⟩

theorem bigHeader_fits : bigHeader.Fits := by constructor <;> decide

/-- A directory whose only file, still without a trailer, almost fills one megabyte. -/
def fullDir (payload : Bytes) : Dir where
  files := [(pathForSha (blockDigest emptyBlock), layOut bigHeader emptyBlock payload [])]
  nodup := by simp

/-- The session is at the token whose visible text is the block. -/
def blockRequest : StoreRequest ℕ := ⟨[0], 1, 1, emptyBlock, 0, [0], none⟩

def oneMegabyte : Options := ⟨1, 0⟩

theorem emptyBlock_length : emptyBlock.length = 25 := by decide

theorem shaHexName_block :
    shaHexName (pathForSha (blockDigest emptyBlock)) = some (blockDigest emptyBlock) := by
  decide

theorem validBytes_single {sha : Bytes} (hfiles : d.files = [(name, file)])
    (hname : shaHexName name = some sha) (hentry : readEntryFile name sha file = some e)
    (hsize : e.fileSize = file.length) : validBytes d = file.length := by
  rw [validBytes_eq, hfiles]
  simp only [map_cons, map_nil, sum_cons, sum_nil, fileBytes, scanFile, hname,
    hentry, hsize, Nat.add_zero]

def blockTrailer : Bytes :=
  [0x4b, 0x54, 0x4d, 1, 1, 0, 0, 0, 1, 0, 0, 0, 25, 0, 0, 0, 0x31] ++ emptyBlock

theorem kvToolMapWrite_block :
    kvToolMapSerializedSize false blockHooks.mem emptyBlock = some 42 ∧
      kvToolMapWrite false blockHooks.mem emptyBlock = some blockTrailer := by
  decide

section FullDir

variable {payload : Bytes} (hpayload : payload.length = 2 ^ 20 - 100)

include hpayload

theorem blockFile_length (h : Header) (trailer : Bytes) :
    (layOut h emptyBlock payload trailer).length = 2 ^ 20 - 23 + trailer.length := by
  have hlen := layOut_length h emptyBlock payload trailer
  unfold payloadEnd fixedHeader at hlen
  rw [emptyBlock_length] at hlen
  omega

theorem readEntryFile_block {h : Header} (hfits : h.Fits)
    (hsize : h.payloadBytes = 2 ^ 20 - 100) (name sha trailer : Bytes) :
    readEntryFile name sha (layOut h emptyBlock payload trailer) =
      some ⟨sha, name, h, emptyBlock.length, (layOut h emptyBlock payload trailer).length⟩ := by
  apply readEntryFile_layOut hfits
  · rw [emptyBlock_length]
    omega
  · rw [hsize, hpayload]
  · rw [emptyBlock_length, payloadEnd, fixedHeader]
    omega

theorem openStore_fullDir :
    openStore (fun _ => 0) 1 false oneMegabyte (fullDir payload) =
      (⟨true, 2 ^ 20, false, oneMegabyte, 0⟩, fullDir payload) := by
  have hfull : validBytes (fullDir payload) = 2 ^ 20 - 23 := by
    rw [validBytes_single rfl shaHexName_block
      (readEntryFile_block hpayload bigHeader_fits rfl _ _ []) rfl, blockFile_length hpayload]
    rfl
  unfold openStore
  simp only
  rw [evict_of_fits (fun _ => 0) (by omega) (by rw [hfull]; decide)]
  rfl

theorem storeLivePrefixText_fullDir :
    (storeLivePrefixText blockDigest (fun _ _ _ => 0) ⟨true, 2 ^ 20, false, oneMegabyte, 0⟩
        abEngine blockHooks 0 blockRequest (fullDir payload)).2.files =
      [(pathForSha (blockDigest emptyBlock),
        layOut { bigHeader with extFlags := 1 } emptyBlock payload blockTrailer)] := by
  have hstorable : storable ⟨true, 2 ^ 20, false, oneMegabyte, 0⟩ abEngine blockRequest = true := by
    decide
  have htext : storeText abEngine blockRequest = emptyBlock := by decide
  have hread : (fullDir payload).read (pathForSha (blockDigest emptyBlock)) =
      some (layOut bigHeader emptyBlock payload []) :=
    Dir.read_of_mem (f := (_, _)) (mem_singleton.mpr rfl)
  have hshort : emptyBlock.length < 2 ^ 32 := by
    rw [emptyBlock_length]
    omega
  have hsize : bigHeader.payloadBytes = payload.length := by
    rw [hpayload]
    rfl
  have hexisting : existingEntry blockDigest ⟨true, 2 ^ 20, false, oneMegabyte, 0⟩ abEngine
      (fullDir payload) (blockDigest emptyBlock) emptyBlock = some ⟨blockDigest emptyBlock,
        pathForSha (blockDigest emptyBlock), bigHeader, emptyBlock.length,
        (layOut bigHeader emptyBlock payload []).length⟩ := by
    unfold existingEntry
    rw [hread]
    simp only
    rw [readEntryFile_block hpayload bigHeader_fits rfl]
    rw [fileTextMatches_layOut bigHeader_fits payload [] hshort]
    rfl
  have hflags : ({ bigHeader with
      extFlags := bigHeader.extFlags ||| blockHooks.extFlag, lastUsed := 0 } : Header) =
      { bigHeader with extFlags := 1 } := by decide
  have hretrail : retrailFile blockHooks.extFlag 0 blockTrailer
      (layOut bigHeader emptyBlock payload []) =
      layOut { bigHeader with extFlags := 1 } emptyBlock payload blockTrailer := by
    rw [retrailFile_layOut bigHeader_fits _ _ _ hshort hsize (by decide), hflags]
  have hest : kvToolMapSerializedSize blockHooks.disabled blockHooks.mem
      (storeText abEngine blockRequest) = some 42 := by
    exact kvToolMapWrite_block.1
  rw [storeLivePrefixText_present _ 0 hstorable hest (by rw [htext]; exact hexisting), htext]
  unfold rewriteTrailer
  rw [show blockHooks.disabled = false from rfl, kvToolMapWrite_block.1, kvToolMapWrite_block.2]
  simp only [if_neg (show ¬ (42 : ℕ) = 0 by decide)]
  rw [← hretrail]
  unfold Dir.rewrite fullDir
  simp only [map_cons, map_nil, if_true]

theorem validBytes_retrailed :
    2 ^ 20 < validBytes (storeLivePrefixText blockDigest (fun _ _ _ => 0)
      ⟨true, 2 ^ 20, false, oneMegabyte, 0⟩ abEngine blockHooks 0 blockRequest
      (fullDir payload)).2 := by
  have hfits : Header.Fits { bigHeader with extFlags := 1 } := by constructor <;> decide
  have hsize := validBytes_single (storeLivePrefixText_fullDir hpayload) shaHexName_block
    (readEntryFile_block hpayload hfits rfl _ _ blockTrailer) rfl
  have htrailer : blockTrailer.length = 42 := by decide
  rw [hsize, blockFile_length hpayload]
  omega

theorem exceeds_retrailed :
    ¬ ∀ x, Reached blockDigest (fun _ _ _ => 0) (fun _ (_ : Op ℕ ℕ) => True)
      (openStore (fun _ => 0) 1 false oneMegabyte (fullDir payload)) x →
      validBytes x.2 ≤ x.1.budgetBytes := by
  intro h
  rw [openStore_fullDir hpayload] at h
  have hstored : Reached blockDigest (fun _ _ _ => 0) (fun _ (_ : Op ℕ ℕ) => True)
      (⟨true, 2 ^ 20, false, oneMegabyte, 0⟩, fullDir payload)
      (⟨true, 2 ^ 20, false, oneMegabyte, 0⟩,
        (storeLivePrefixText blockDigest (fun _ _ _ => 0) ⟨true, 2 ^ 20, false, oneMegabyte, 0⟩
          abEngine blockHooks 0 blockRequest (fullDir payload)).2) :=
    .step (.store abEngine blockHooks 0 blockRequest) .opened trivial
  have hgrown := validBytes_retrailed hpayload
  have hover := h _ hstored
  dsimp only at hover
  exact Nat.not_le_of_lt hgrown hover

end FullDir

@[irreducible] def zeroPayload : Bytes := replicate (2 ^ 20 - 100) 0

theorem zeroPayload_length : zeroPayload.length = 2 ^ 20 - 100 := by
  unfold zeroPayload
  exact length_replicate

/-- Storing the text again appends 42 bytes to a file that has room for 23. -/
theorem reached_withinBudget_retrailed :
    ¬ ∀ x, Reached blockDigest (fun _ _ _ => 0) (fun _ (_ : Op ℕ ℕ) => True)
      (openStore (fun _ => 0) 1 false oneMegabyte (fullDir zeroPayload)) x →
      validBytes x.2 ≤ x.1.budgetBytes :=
  exceeds_retrailed zeroPayload_length

/-- A store with one file. -/
def abOpened : Store × Dir :=
  openStore (fun _ => 0) 1 false oneMegabyte ⟨[abFile (str "ab") (str "torn")], by decide⟩

def aStored : Op ℕ ℕ :=
  .store abEngine ⟨0, true, []⟩ 1 ⟨[97], 1, 1, str "a", 0, [97], some (str "good")⟩

def aLoaded : Op ℕ ℕ := .load abEngine 1 7 (str "a") State.created

theorem reached_withinBudget_stored :
    let x := [aStored, aLoaded].foldl (step abDigest fun _ _ _ => 0) abOpened
    x.2.files.length = 2 ∧ validBytes x.2 ≤ x.1.budgetBytes := by
  have hstored : ¬ Overflows abDigest abOpened aStored := by
    rintro ⟨-, -, trailerEst, -, hest, hne, -⟩
    exact hne (some.inj hest).symm
  have hrun : Reached abDigest (fun _ _ _ => 0) (fun y (op : Op ℕ ℕ) => ¬ Overflows abDigest y op)
      abOpened ([aStored, aLoaded].foldl (step abDigest fun _ _ _ => 0) abOpened) :=
    .step aLoaded (.step aStored .opened hstored) id
  exact ⟨by decide +kernel, reached_withinBudget (by decide) (by decide) hrun⟩

end Ds4Studio.Kvstore
