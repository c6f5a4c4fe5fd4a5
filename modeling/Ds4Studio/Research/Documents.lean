import Ds4Studio.Lib.Run
import Ds4Studio.Web.Chunking

/-!
The documents of a research session: uploads, launches and readings of all chunks that are under
way together. Every awaited call of the file system is one step, at which any other call can come
in between, and a write that fails can leave a file cut short.
-/

namespace Ds4Studio.Research.Documents

open List Option Run Utf16 Web.Chunking

/-! ### Documents and files -/

/-- `text.padStart(length, "0")` -/
def padStart (length : ℕ) (text : List Char) : List Char :=
  replicate (length - text.length) '0' ++ text

def units (text : List Char) : Utf16 := text.map fun c => c.toNat.toUInt16

/-- The id of the document behind `n` others. -/
def docId (n : ℕ) : Utf16 := units ("doc".toList ++ padStart 3 (Nat.toDigits 10 n))

structure DocChunk where
  id : Utf16
  docId : Utf16
  index : ℕ
  title : Utf16
  text : Utf16
  approxTokens : ℕ

def chunkId (docId : Utf16) (i : ℕ) : Utf16 :=
  docId ++ units ("_c".toList ++ padStart 3 (Nat.toDigits 10 i))

def chunkDocument (d : Doubles) (text docId : Utf16) : List DocChunk :=
  (splitMarkdownChunks d text (.nat 400)).mapIdx fun i chunk =>
    ⟨chunkId docId i, docId, i, chunk.title, chunk.body, chunk.approxTokens⟩

structure Entry where
  docId : Utf16
  name : Utf16
  chunkCount : ℕ
  addedAt : Utf16

/-- What a file holds: all that was written, or a text that is cut short and cannot be parsed. -/
inductive File (α : Type) where
  | whole (value : α)
  | cut
deriving DecidableEq

/-- How a call of the file system ends. A write that fails leaves the file as it was, cut short,
or with the whole text in it. -/
inductive Outcome where
  | done
  | failed
  | failedCut
  | failedWhole
deriving DecidableEq

variable {α : Type}

/-- What is in a file after a write to it. -/
def written (outcome : Outcome) (old : Option (File α)) (value : α) : Option (File α) :=
  match outcome with
  | .done | .failedWhole => some (.whole value)
  | .failed => old
  | .failedCut => some .cut

inductive Status where
  | draft
  | running
deriving DecidableEq

/-- The files of a session. A temporary file is there from a write to its renaming. -/
structure Disk where
  state : File Status
  stateTmp : Option (File Status)
  manifest : Option (File (List Entry))
  manifestTmp : Option (File (List Entry))
  chunks : Utf16 → Option (File (List DocChunk))

def Disk.putChunks (disk : Disk) (docId : Utf16) (file : Option (File (List DocChunk))) : Disk :=
  { disk with chunks := Function.update disk.chunks docId file }

/-- A file with a list in it, which is empty where there is no file. -/
def readList : Option (File (List α)) → Option (List α)
  | none => some []
  | some (.whole list) => some list
  | some .cut => none

/-! ### Calls -/

/-- Where an `addDocument` waits. -/
inductive Uploading where
  | loadState
  | mkdir
  | loadManifest
  | writeChunks (manifest : List Entry)
  | writeManifest (manifest : List Entry) (entry : Entry)
  | rename (manifest : List Entry) (entry : Entry)
  | returned (entry : Entry)
  | rejected

/-- Where a `loadAllChunks` waits. -/
inductive Loading where
  | loadManifest
  | readChunks (manifest : List Entry) (all : List DocChunk) (doc : Entry) (rest : List Entry)
  | returned (manifest : List Entry) (all : List DocChunk)
  | rejected

/-- Where a `launch` waits. The job that it starts calls `loadAllChunks`, as an event of its
own. -/
inductive Launching where
  | loadState
  | mkdir
  | writeState
  | rename
  | launched
  | rejected

inductive Call where
  | upload (name markdown : Utf16) (now : Uploading)
  | launch (now : Launching)
  | load (now : Loading)

/-- Goes on if the call of the file system has succeeded. -/
def Outcome.proceed (outcome : Outcome) (now rejected : α) : α :=
  if outcome = .done then now else rejected

section Steps

variable (d : Doubles) (outcome : Outcome) (disk : Disk)


/-- `addDocument`, of the runtime and then of the store, from one `await` to the next. -/
def resumeUpload (name markdown addedAt : Utf16) : Uploading → Disk × Uploading
  | .loadState =>
      if outcome = .done ∧ disk.state = .whole .draft ∧ trim markdown ≠ [] then (disk, .mkdir)
      else (disk, .rejected)
  | .mkdir => (disk, outcome.proceed .loadManifest .rejected)
  | .loadManifest =>
      match readList disk.manifest with
      | some manifest => (disk, outcome.proceed (.writeChunks manifest) .rejected)
      | none => (disk, .rejected)
  | .writeChunks manifest =>
      let id := docId manifest.length
      let chunks := chunkDocument d markdown id
      let entry := ⟨id, if name = [] then id else name, chunks.length, addedAt⟩
      (disk.putChunks id (written outcome (disk.chunks id) chunks),
        outcome.proceed (.writeManifest manifest entry) .rejected)
  | .writeManifest manifest entry =>
      ({ disk with manifestTmp := written outcome disk.manifestTmp (manifest ++ [entry]) },
        outcome.proceed (.rename manifest entry) .rejected)
  | .rename _ entry =>
      match disk.manifestTmp with
      | some file =>
          if outcome = .done then
            ({ disk with manifest := some file, manifestTmp := none }, .returned entry)
          else (disk, .rejected)
      | none => (disk, .rejected)
  | .returned entry => (disk, .returned entry)
  | .rejected => (disk, .rejected)

def nextDoc (manifest : List Entry) (all : List DocChunk) : List Entry → Loading
  | [] => .returned manifest all
  | doc :: rest => .readChunks manifest all doc rest

/-- `loadAllChunks` -/
def resumeLoad : Loading → Loading
  | .loadManifest =>
      match readList disk.manifest with
      | some manifest => outcome.proceed (nextDoc manifest [] manifest) .rejected
      | none => .rejected
  | .readChunks manifest all doc rest =>
      match readList (disk.chunks doc.docId) with
      | some chunks => outcome.proceed (nextDoc manifest (all ++ chunks) rest) .rejected
      | none => .rejected
  | .returned manifest all => .returned manifest all
  | .rejected => .rejected

/-- `launch` -/
def resumeLaunch : Launching → Disk × Launching
  | .loadState =>
      if outcome = .done ∧ disk.state = .whole .draft then (disk, .mkdir) else (disk, .rejected)
  | .mkdir => (disk, outcome.proceed .writeState .rejected)
  | .writeState =>
      ({ disk with stateTmp := written outcome disk.stateTmp .running },
        outcome.proceed .rename .rejected)
  | .rename =>
      match disk.stateTmp with
      | some file =>
          if outcome = .done then ({ disk with state := file, stateTmp := none }, .launched)
          else (disk, .rejected)
      | none => (disk, .rejected)
  | .launched => (disk, .launched)
  | .rejected => (disk, .rejected)

def resume (addedAt : Utf16) : Call → Disk × Call
  | .upload name markdown now =>
      let (disk, now) := resumeUpload d outcome disk name markdown addedAt now
      (disk, .upload name markdown now)
  | .launch now =>
      let (disk, now) := resumeLaunch outcome disk now
      (disk, .launch now)
  | .load now => (disk, .load (resumeLoad outcome disk now))

end Steps

/-- The files and the calls, each named by its place. -/
structure State where
  disk : Disk
  calls : List Call

/-- A call comes in, or the file system answers the call at a place. -/
inductive Event where
  | addDocument (name markdown : Utf16)
  | launch
  | loadAllChunks
  | answer (i : ℕ) (outcome : Outcome) (now : Utf16)

def State.begin (s : State) (call : Call) : State := { s with calls := s.calls ++ [call] }

def next (d : Doubles) (s : State) : Event → State
  | .addDocument name markdown => s.begin (.upload name markdown .loadState)
  | .launch => s.begin (.launch .loadState)
  | .loadAllChunks => s.begin (.load .loadManifest)
  | .answer i outcome now =>
      match s.calls[i]? with
      | some call =>
          let (disk, call) := resume d outcome s.disk now call
          ⟨disk, s.calls.set i call⟩
      | none => s

/-- A session that has been created and saved as a draft. -/
def created : State := ⟨⟨.whole .draft, none, none, none, fun _ => none⟩, []⟩

/-! ### The property -/

/-- A call for a document with the markdown has returned the entry. -/
def Returned (s : State) (i : ℕ) (markdown : Utf16) (entry : Entry) : Prop :=
  ∃ name, s.calls[i]? = some (.upload name markdown (.returned entry))

/-- What is kept of the documents: the manifest can be read, its ids are distinct, every call that
has returned has one entry of its own in it and its chunks in their file, and every reading of all
chunks has given the chunks of the documents that were listed. -/
structure Kept (d : Doubles) (s : State) (manifest : List Entry) : Prop where
  readable : readList s.disk.manifest = some manifest
  distinct : (manifest.map Entry.docId).Nodup
  listed : ∀ i markdown entry, Returned s i markdown entry →
    manifest.filter (fun other => other.docId = entry.docId) = [entry]
  apart : ∀ i j markdown markdown' entry entry', Returned s i markdown entry →
    Returned s j markdown' entry' → entry.docId = entry'.docId → i = j
  chunks : ∀ i markdown entry, Returned s i markdown entry →
    s.disk.chunks entry.docId = some (.whole (chunkDocument d markdown entry.docId))
  loaded : ∀ (i : ℕ) listed all, s.calls[i]? = some (.load (.returned listed all)) →
    ∃ docs : List (Entry × Utf16), docs.map Prod.fst = listed ∧
      (∀ doc ∈ docs, ∃ j, Returned s j doc.2 doc.1) ∧
      all = docs.flatMap fun doc => chunkDocument d doc.2 doc.1.docId

/-- The step keeps the documents, and accepts none unless the session is a draft. -/
def Keeps (d : Doubles) (s : State) (e : Event) : Prop :=
  (∃ manifest, Kept d (next d s e) manifest) ∧
    ∀ i markdown entry, Returned (next d s e) i markdown entry → ¬Returned s i markdown entry →
      s.disk.state = .whole .draft

/-- What the answer to an upload must find. A chunks file that is written is not that of a listed
document, unless it stays as it is. When the manifest is renamed, the temporary file has the text
that the call wrote, the manifest is the one that it read, the chunks file has its own chunks,
and the session is a draft. -/
def Alone (d : Doubles) (disk : Disk) (outcome : Outcome) (markdown : Utf16) :
    Uploading → Prop
  | .writeChunks manifest =>
      let id := docId manifest.length
      ∀ listed, readList disk.manifest = some listed → id ∈ listed.map Entry.docId →
        written outcome (disk.chunks id) (chunkDocument d markdown id) = disk.chunks id
  | .rename manifest entry =>
      outcome = .done → ∀ file, disk.manifestTmp = some file →
        file = .whole (manifest ++ [entry]) ∧ readList disk.manifest = some manifest ∧
          disk.chunks entry.docId = some (.whole (chunkDocument d markdown entry.docId)) ∧
          disk.state = .whole .draft
  | _ => True

def Meets (d : Doubles) (s : State) : Event → Prop
  | .answer i outcome _ =>
      ∀ name markdown now, s.calls[i]? = some (.upload name markdown now) →
        Alone d s.disk outcome markdown now
  | _ => True

/-! ### Ids -/

/-- The number that digits stand for. -/
def digitsValue (text : Utf16) : ℕ := text.foldl (fun n u => 10 * n + (u.toNat - 0x30)) 0

theorem digitsValue_append (a b : Utf16) :
    digitsValue (a ++ b) = b.foldl (fun n u => 10 * n + (u.toNat - 0x30)) (digitsValue a) :=
  foldl_append

theorem digitsValue_zeros (n : ℕ) : digitsValue (replicate n 0x30) = 0 := by
  induction n with
  | zero => rfl
  | succ n ih =>
    rw [replicate_succ', digitsValue_append, ih]
    rfl

theorem foldl_units {digits : List Char} (h : ∀ c ∈ digits, c.isDigit = true) (n : ℕ) :
    (units digits).foldl (fun n u => 10 * n + (u.toNat - 0x30)) n =
      Nat.ofDigitChars 10 digits n := by
  induction digits generalizing n with
  | nil => rfl
  | cons c digits ih =>
    obtain ⟨hc, hdigits⟩ := forall_mem_cons.mp h
    have hsmall : c.toNat < 2 ^ 16 := by
      simp only [Char.isDigit, Bool.and_eq_true, decide_eq_true_eq] at hc
      have hnine : c.toNat ≤ 0x39 := UInt32.le_iff_toNat_le.mp hc.2
      omega
    have hunit : c.toNat.toUInt16.toNat = c.toNat := Nat.mod_eq_of_lt hsmall
    rw [units, map_cons, foldl_cons, hunit]
    exact ih hdigits _

theorem digitsValue_padStart (length n : ℕ) :
    digitsValue (units (padStart length (Nat.toDigits 10 n))) = n := by
  rw [padStart, units, map_append, map_replicate, digitsValue_append,
    show '0'.toNat.toUInt16 = 0x30 from rfl, digitsValue_zeros]
  refine (foldl_units (fun c hc => ?_) 0).trans ?_
  · exact Nat.isDigit_of_mem_toDigits (by decide) (by decide) hc
  · exact Nat.ofDigitChars_toDigits (by decide) (by decide)

theorem docId_injective : Function.Injective docId := by
  intro m n h
  have hdigits : units (padStart 3 (Nat.toDigits 10 m)) =
      units (padStart 3 (Nat.toDigits 10 n)) := by
    rw [docId, units, map_append] at h
    exact append_cancel_left h
  rw [← digitsValue_padStart 3 m, hdigits, digitsValue_padStart]

/-! ### The invariant -/

variable {d : Doubles} {s : State} {docs docs' : List (Entry × Utf16)} {i : ℕ}

def chunksOf (d : Doubles) (doc : Entry × Utf16) : List DocChunk :=
  chunkDocument d doc.2 doc.1.docId

/-- What is true of a call when the documents have been listed one after another. -/
def Sane (d : Doubles) (docs : List (Entry × Utf16)) : Call → Prop
  | .upload _ _ (.writeChunks manifest) => manifest <+: docs.map Prod.fst
  | .upload _ _ (.writeManifest manifest entry) | .upload _ _ (.rename manifest entry) =>
      manifest <+: docs.map Prod.fst ∧ entry.docId = docId manifest.length
  | .upload _ markdown (.returned entry) => (entry, markdown) ∈ docs
  | .load (.readChunks listed all doc rest) => ∃ read left, read ++ left <+: docs ∧
      listed = (read ++ left).map Prod.fst ∧ doc :: rest = left.map Prod.fst ∧
      all = read.flatMap (chunksOf d)
  | .load (.returned listed all) => ∃ read, read <+: docs ∧ listed = read.map Prod.fst ∧
      all = read.flatMap (chunksOf d)
  | _ => True

variable {call : Call}

theorem Sane.mono (h : Sane d docs call) (hdocs : docs <+: docs') : Sane d docs' call := by
  have hfst : docs.map Prod.fst <+: docs'.map Prod.fst := hdocs.map Prod.fst
  unfold Sane at h ⊢
  split at h
  case h_1 => exact h.trans hfst
  case h_2 => exact ⟨h.1.trans hfst, h.2⟩
  case h_3 => exact ⟨h.1.trans hfst, h.2⟩
  case h_4 => exact hdocs.subset h
  case h_5 =>
    obtain ⟨read, left, hread, h⟩ := h
    exact ⟨read, left, hread.trans hdocs, h⟩
  case h_6 =>
    obtain ⟨read, hread, h⟩ := h
    exact ⟨read, hread.trans hdocs, h⟩
  case h_7 => trivial

/-- A manifest as a call writes it: the first documents and one more. -/
def Extended (docs : List (Entry × Utf16)) (manifest : List Entry) : Prop :=
  ∃ front entry, manifest = front ++ [entry] ∧ front <+: docs.map Prod.fst ∧
    entry.docId = docId front.length

/-- The documents have been listed one after another, each by the call that has returned it, and
its chunks are in its file. -/
structure Inv (d : Doubles) (s : State) (docs : List (Entry × Utf16)) : Prop where
  manifest : readList s.disk.manifest = some (docs.map Prod.fst)
  ids : ∀ n doc, docs[n]? = some doc → doc.1.docId = docId n
  chunks : ∀ doc ∈ docs, s.disk.chunks doc.1.docId = some (.whole (chunksOf d doc))
  owned : ∀ doc ∈ docs, ∃ i, Returned s i doc.2 doc.1
  apart : ∀ i j markdown markdown' entry entry', Returned s i markdown entry →
    Returned s j markdown' entry' → entry.docId = entry'.docId → i = j
  tmp : ∀ manifest, s.disk.manifestTmp = some (.whole manifest) → Extended docs manifest
  calls : ∀ (i : ℕ) call, s.calls[i]? = some call → Sane d docs call

theorem Inv.created (d : Doubles) : Inv d created [] where
  manifest := rfl
  ids n doc h := by cases h
  chunks doc h := by cases h
  owned doc h := by cases h
  apart i j _ _ _ _ h := by
    obtain ⟨name, h⟩ := h
    cases h
  tmp manifest h := by cases h
  calls i call h := by cases h

variable {entry : Entry} {markdown : Utf16}

theorem Inv.mem_of_returned (h : Inv d s docs) (hreturned : Returned s i markdown entry) :
    (entry, markdown) ∈ docs := by
  obtain ⟨name, hcall⟩ := hreturned
  exact h.calls i _ hcall

theorem Inv.map_docId (h : Inv d s docs) :
    docs.map (fun doc => doc.1.docId) = (range docs.length).map docId := by
  apply ext_getElem?
  intro n
  rw [getElem?_map, getElem?_map]
  rcases hdoc : docs[n]? with _ | doc
  · rw [getElem?_eq_none (by simpa using hdoc)]
    rfl
  · have hn : n < docs.length := (List.getElem?_eq_some_iff.mp hdoc).1
    rw [getElem?_range hn, map_some, map_some, h.ids n doc hdoc]

theorem Inv.nodup (h : Inv d s docs) : ((docs.map Prod.fst).map Entry.docId).Nodup := by
  rw [List.map_map]
  exact h.map_docId ▸ nodup_range.map docId_injective

variable {manifest : List Entry}

theorem filter_of_nodup (hnodup : (manifest.map Entry.docId).Nodup) (hmem : entry ∈ manifest) :
    manifest.filter (fun other => other.docId = entry.docId) = [entry] := by
  induction manifest with
  | nil => cases hmem
  | cons first rest ih =>
    rw [map_cons, nodup_cons] at hnodup
    obtain ⟨hfirst, hrest⟩ := hnodup
    rw [filter_cons]
    rcases mem_cons.mp hmem with rfl | hmem
    · rw [if_pos (decide_eq_true rfl), filter_eq_nil_iff.mpr fun other hother hsame => ?_]
      exact hfirst (mem_map.mpr ⟨other, hother, of_decide_eq_true hsame⟩)
    · rw [if_neg fun hsame => ?_, ih hrest hmem]
      exact hfirst (of_decide_eq_true hsame ▸ mem_map_of_mem hmem)

theorem Inv.kept (h : Inv d s docs) : Kept d s (docs.map Prod.fst) where
  readable := h.manifest
  distinct := h.nodup
  listed i markdown entry hreturned :=
    filter_of_nodup h.nodup (mem_map_of_mem (f := Prod.fst) (h.mem_of_returned hreturned))
  apart := h.apart
  chunks i markdown entry hreturned := h.chunks _ (h.mem_of_returned hreturned)
  loaded i listed all hcall := by
    obtain ⟨read, hread, hlisted, hall⟩ := h.calls i _ hcall
    exact ⟨read, hlisted.symm, fun doc hdoc => h.owned doc (hread.subset hdoc), hall⟩

/-! ### Steps -/

variable {disk : Disk}

theorem returned_set_ne {j : ℕ} (hne : i ≠ j) :
    Returned ⟨disk, s.calls.set i call⟩ j markdown entry ↔ Returned s j markdown entry := by
  rw [Returned, Returned, getElem?_set_ne hne]

theorem Inv.quiet (h : Inv d s docs) {call' : Call} (hcall : s.calls[i]? = some call)
    (hreturned : ∀ name markdown entry, call' = .upload name markdown (.returned entry) ↔
      call = .upload name markdown (.returned entry))
    (hsane : Sane d docs call') (hmanifest : disk.manifest = s.disk.manifest)
    (hchunks : ∀ doc ∈ docs, disk.chunks doc.1.docId = s.disk.chunks doc.1.docId)
    (htmp : ∀ manifest, disk.manifestTmp = some (.whole manifest) → Extended docs manifest) :
    Inv d ⟨disk, s.calls.set i call'⟩ docs := by
  have hlength : i < s.calls.length := (List.getElem?_eq_some_iff.mp hcall).1
  have hsame (j : ℕ) (markdown : Utf16) (entry : Entry) :
      Returned ⟨disk, s.calls.set i call'⟩ j markdown entry ↔ Returned s j markdown entry := by
    by_cases hj : i = j
    · subst hj
      simp only [Returned, getElem?_set_self hlength, hcall, some_inj, hreturned]
    · exact returned_set_ne hj
  constructor
  case manifest => exact hmanifest ▸ h.manifest
  case ids => exact h.ids
  case chunks => exact fun doc hdoc => (hchunks doc hdoc).trans (h.chunks doc hdoc)
  case owned =>
    intro doc hdoc
    obtain ⟨j, hj⟩ := h.owned doc hdoc
    exact ⟨j, (hsame j _ _).mpr hj⟩
  case apart =>
    intro j k markdown markdown' entry entry' hj hk
    exact h.apart j k _ _ _ _ ((hsame j _ _).mp hj) ((hsame k _ _).mp hk)
  case tmp => exact htmp
  case calls =>
    intro j other hother
    rw [getElem?_set] at hother
    split_ifs at hother with hj
    · cases hother
      exact hsane
    · exact h.calls j other hother

theorem returned_begin
    (hnot : ∀ name markdown entry, call ≠ .upload name markdown (.returned entry)) (j : ℕ)
    (markdown : Utf16) (entry : Entry) :
    Returned (s.begin call) j markdown entry ↔ Returned s j markdown entry := by
  refine exists_congr fun name => ?_
  rw [State.begin, getElem?_append]
  split_ifs with hj
  · rfl
  · rw [getElem?_eq_none (Nat.le_of_not_lt hj)]
    constructor
    · intro hlast
      exact absurd (mem_singleton.mp (mem_of_getElem? hlast)).symm (hnot _ _ _)
    · intro hnone
      cases hnone

theorem Inv.begin (h : Inv d s docs) (hsane : Sane d docs call)
    (hnot : ∀ name markdown entry, call ≠ .upload name markdown (.returned entry)) :
    Inv d (s.begin call) docs := by
  have hsame (j : ℕ) (markdown : Utf16) (entry : Entry) :
      Returned (s.begin call) j markdown entry ↔ Returned s j markdown entry :=
    returned_begin hnot j markdown entry
  constructor
  case manifest => exact h.manifest
  case ids => exact h.ids
  case chunks => exact h.chunks
  case owned =>
    intro doc hdoc
    obtain ⟨j, hj⟩ := h.owned doc hdoc
    exact ⟨j, (hsame j _ _).mpr hj⟩
  case apart =>
    intro j k markdown markdown' entry entry' hj hk
    exact h.apart j k _ _ _ _ ((hsame j _ _).mp hj) ((hsame k _ _).mp hk)
  case tmp => exact h.tmp
  case calls =>
    intro j other hother
    rcases mem_append.mp (mem_of_getElem? hother) with hmem | hmem
    · obtain ⟨k, hk⟩ := mem_iff_getElem?.mp hmem
      exact h.calls k other hk
    · exact mem_singleton.mp hmem ▸ hsane

variable {name markdown : Utf16}

/-- The manifest of a call takes the place of the one that the call has read. -/
theorem Inv.accept (h : Inv d s docs)
    (hcall : s.calls[i]? = some (.upload name markdown (.rename (docs.map Prod.fst) entry)))
    (hchunks : s.disk.chunks entry.docId =
      some (.whole (chunkDocument d markdown entry.docId))) :
    Inv d ⟨{ s.disk with
      manifest := some (.whole (docs.map Prod.fst ++ [entry])), manifestTmp := none },
      s.calls.set i (.upload name markdown (.returned entry))⟩ (docs ++ [(entry, markdown)]) := by
  have hlength : i < s.calls.length := (List.getElem?_eq_some_iff.mp hcall).1
  have hid : entry.docId = docId docs.length := by rw [(h.calls i _ hcall).2, length_map]
  have hfresh (j : ℕ) (markdown' : Utf16) (entry' : Entry) (hj : Returned s j markdown' entry') :
      entry'.docId ≠ docId docs.length := by
    intro hsame
    obtain ⟨n, hn⟩ := mem_iff_getElem?.mp (h.mem_of_returned hj)
    have hn' : n = docs.length := docId_injective ((h.ids n _ hn).symm.trans hsame)
    rw [hn', getElem?_eq_none le_rfl] at hn
    cases hn
  have hnot (markdown' : Utf16) (entry' : Entry) : ¬Returned s i markdown' entry' := by
    rintro ⟨name', hreturned⟩
    rw [hcall] at hreturned
    cases hreturned
  constructor
  case manifest => rw [map_append]; rfl
  case ids =>
    intro n doc hdoc
    rw [getElem?_append] at hdoc
    split_ifs at hdoc with hn
    · exact h.ids n doc hdoc
    · obtain ⟨hlt, rfl⟩ := List.getElem?_eq_some_iff.mp hdoc
      rw [length_singleton] at hlt
      have hn' : n = docs.length := by omega
      subst hn'
      simpa using hid
  case chunks =>
    intro doc hdoc
    rcases mem_append.mp hdoc with hdoc | hdoc
    · exact h.chunks doc hdoc
    · rw [mem_singleton.mp hdoc]
      exact hchunks
  case owned =>
    intro doc hdoc
    rcases mem_append.mp hdoc with hdoc | hdoc
    · obtain ⟨j, hj⟩ := h.owned doc hdoc
      refine ⟨j, (returned_set_ne ?_).mpr hj⟩
      rintro rfl
      exact hnot _ _ hj
    · rw [mem_singleton.mp hdoc]
      exact ⟨i, name, getElem?_set_self hlength⟩
  case apart =>
    intro j k markdown₁ markdown₂ entry₁ entry₂ hj hk hsame
    by_cases hji : i = j <;> by_cases hki : i = k
    · exact hji.symm.trans hki
    · subst hji
      obtain ⟨name', hcall'⟩ := hj
      rw [getElem?_set_self hlength] at hcall'
      cases hcall'
      exact absurd (hsame.symm.trans hid) (hfresh k _ _ ((returned_set_ne hki).mp hk))
    · subst hki
      obtain ⟨name', hcall'⟩ := hk
      rw [getElem?_set_self hlength] at hcall'
      cases hcall'
      exact absurd (hsame.trans hid) (hfresh j _ _ ((returned_set_ne hji).mp hj))
    · exact h.apart j k _ _ _ _ ((returned_set_ne hji).mp hj) ((returned_set_ne hki).mp hk) hsame
  case tmp =>
    intro manifest hmanifest
    cases hmanifest
  case calls =>
    intro j other hother
    rw [getElem?_set] at hother
    split_ifs at hother with hj
    · cases hother
      exact mem_append_right _ (mem_singleton.mpr rfl)
    · exact (h.calls j other hother).mono (prefix_append _ _)

theorem Inv.upload_quiet (h : Inv d s docs) {now now' : Uploading}
    (hcall : s.calls[i]? = some (.upload name markdown now))
    (hnow : ∀ entry, now ≠ .returned entry) (hnow' : ∀ entry, now' ≠ .returned entry)
    (hsane : Sane d docs (.upload name markdown now')) (hmanifest : disk.manifest = s.disk.manifest)
    (hchunks : ∀ doc ∈ docs, disk.chunks doc.1.docId = s.disk.chunks doc.1.docId)
    (htmp : ∀ manifest, disk.manifestTmp = some (.whole manifest) → Extended docs manifest) :
    Inv d ⟨disk, s.calls.set i (.upload name markdown now')⟩ docs := by
  refine h.quiet hcall (fun name' markdown' entry => ?_) hsane hmanifest hchunks htmp
  constructor
  · intro heq
    cases heq
    exact absurd rfl (hnow' entry)
  · intro heq
    cases heq
    exact absurd rfl (hnow entry)

theorem proceed_cases (outcome : Outcome) (now rejected : α) :
    outcome.proceed now rejected = now ∨ outcome.proceed now rejected = rejected := by
  rw [Outcome.proceed]
  split_ifs
  · exact .inl rfl
  · exact .inr rfl

variable {outcome : Outcome}

theorem written_cases {old : Option (File α)} {value value' : α}
    (h : written outcome old value = some (.whole value')) :
    old = some (.whole value') ∨ value' = value := by
  cases outcome with
  | done | failedWhole =>
    cases h
    exact .inr rfl
  | failed => exact .inl h
  | failedCut => cases h

theorem Inv.answerUpload (h : Inv d s docs) {now : Uploading}
    (hcall : s.calls[i]? = some (.upload name markdown now))
    (hmeets : Alone d s.disk outcome markdown now) (addedAt : Utf16) :
    ∃ docs', Inv d ⟨(resumeUpload d outcome s.disk name markdown addedAt now).1,
      s.calls.set i (.upload name markdown
        (resumeUpload d outcome s.disk name markdown addedAt now).2)⟩ docs' := by
  have hsane := h.calls i _ hcall
  cases now with
  | loadState =>
    refine ⟨docs, ?_⟩
    rw [resumeUpload]
    split_ifs
    · exact h.upload_quiet hcall nofun nofun trivial rfl (fun _ _ => rfl) h.tmp
    · exact h.upload_quiet hcall nofun nofun trivial rfl (fun _ _ => rfl) h.tmp
  | mkdir =>
    refine ⟨docs, ?_⟩
    rw [resumeUpload]
    rcases proceed_cases outcome Uploading.loadManifest .rejected with hgo | hgo
    all_goals
      rw [hgo]
      exact h.upload_quiet hcall nofun nofun trivial rfl (fun _ _ => rfl) h.tmp
  | loadManifest =>
    refine ⟨docs, ?_⟩
    rw [resumeUpload, h.manifest]
    dsimp only
    rcases proceed_cases outcome (Uploading.writeChunks (docs.map Prod.fst)) .rejected with
      hgo | hgo
    · rw [hgo]
      exact h.upload_quiet hcall nofun nofun (prefix_refl _) rfl (fun _ _ => rfl) h.tmp
    · rw [hgo]
      exact h.upload_quiet hcall nofun nofun trivial rfl (fun _ _ => rfl) h.tmp
  | writeChunks manifest =>
    refine ⟨docs, ?_⟩
    have hchunks : ∀ doc ∈ docs, (s.disk.putChunks (docId manifest.length)
        (written outcome (s.disk.chunks (docId manifest.length))
          (chunkDocument d markdown (docId manifest.length)))).chunks doc.1.docId =
            s.disk.chunks doc.1.docId := by
      intro doc hdoc
      by_cases hsame : doc.1.docId = docId manifest.length
      · have hlisted : docId manifest.length ∈ (docs.map Prod.fst).map Entry.docId := by
          rw [← hsame, List.map_map]
          exact mem_map.mpr ⟨doc, hdoc, rfl⟩
        rw [Disk.putChunks, hmeets _ h.manifest hlisted, Function.update_eq_self]
      · exact Function.update_of_ne hsame _ _
    rw [resumeUpload]
    rcases proceed_cases outcome (Uploading.writeManifest manifest _) .rejected with hgo | hgo
    · rw [hgo]
      exact h.upload_quiet hcall nofun nofun ⟨hsane, rfl⟩ rfl hchunks h.tmp
    · rw [hgo]
      exact h.upload_quiet hcall nofun nofun trivial rfl hchunks h.tmp
  | writeManifest manifest entry =>
    refine ⟨docs, ?_⟩
    have htmp (other : List Entry)
        (hother : written outcome s.disk.manifestTmp (manifest ++ [entry]) =
          some (.whole other)) : Extended docs other := by
      rcases written_cases hother with hother | rfl
      · exact h.tmp other hother
      · exact ⟨manifest, entry, rfl, hsane⟩
    rw [resumeUpload]
    rcases proceed_cases outcome (Uploading.rename manifest entry) .rejected with hgo | hgo
    · rw [hgo]
      exact h.upload_quiet hcall nofun nofun hsane rfl (fun _ _ => rfl) htmp
    · rw [hgo]
      exact h.upload_quiet hcall nofun nofun trivial rfl (fun _ _ => rfl) htmp
  | rename manifest entry =>
    rw [resumeUpload]
    split
    case h_1 file htmp =>
      split_ifs with hdone
      · obtain ⟨rfl, hread, hchunks, -⟩ := hmeets hdone file htmp
        rw [h.manifest, some_inj] at hread
        subst hread
        exact ⟨_, h.accept hcall hchunks⟩
      · exact ⟨docs, h.upload_quiet hcall nofun nofun trivial rfl (fun _ _ => rfl) h.tmp⟩
    case h_2 =>
      exact ⟨docs, h.upload_quiet hcall nofun nofun trivial rfl (fun _ _ => rfl) h.tmp⟩
  | returned entry =>
    exact ⟨docs, h.quiet hcall (fun _ _ _ => Iff.rfl) hsane rfl (fun _ _ => rfl) h.tmp⟩
  | rejected =>
    exact ⟨docs, h.upload_quiet hcall nofun nofun trivial rfl (fun _ _ => rfl) h.tmp⟩

theorem nextDoc_sane {listed : List Entry} {all : List DocChunk}
    (read left : List (Entry × Utf16)) (hread : read ++ left <+: docs)
    (hlisted : listed = (read ++ left).map Prod.fst) (hall : all = read.flatMap (chunksOf d)) :
    Sane d docs (.load (nextDoc listed all (left.map Prod.fst))) := by
  cases left with
  | nil =>
    rw [append_nil] at hread hlisted
    exact ⟨read, hread, hlisted, hall⟩
  | cons doc left => exact ⟨read, doc :: left, hread, hlisted, rfl, hall⟩

theorem sane_proceed {now : Loading} (h : Sane d docs (.load now)) (outcome : Outcome) :
    Sane d docs (.load (outcome.proceed now .rejected)) := by
  rcases proceed_cases outcome now .rejected with hgo | hgo
  · rw [hgo]
    exact h
  · rw [hgo]
    trivial

theorem Inv.sane_resumeLoad (h : Inv d s docs) {now : Loading} (hsane : Sane d docs (.load now))
    (outcome : Outcome) : Sane d docs (.load (resumeLoad outcome s.disk now)) := by
  cases now with
  | loadManifest =>
    rw [resumeLoad, h.manifest]
    exact sane_proceed (nextDoc_sane [] docs (prefix_refl docs) rfl rfl) outcome
  | readChunks listed all doc rest =>
    obtain ⟨read, left, hread, hlisted, hleft, hall⟩ := hsane
    obtain ⟨first, left, rfl, rfl, rfl⟩ := map_eq_cons_iff.mp hleft.symm
    have hfirst : first ∈ docs := hread.subset (mem_append_right _ mem_cons_self)
    rw [resumeLoad, h.chunks first hfirst]
    refine sane_proceed (nextDoc_sane (read ++ [first]) left ?_ ?_ ?_) outcome
    · rwa [append_assoc]
    · rwa [append_assoc]
    · rw [flatMap_append, ← hall, flatMap_singleton]
  | returned listed all => exact hsane
  | rejected => trivial

theorem resumeLaunch_documents (outcome : Outcome) (disk : Disk) (now : Launching) :
    (resumeLaunch outcome disk now).1.manifest = disk.manifest ∧
      (resumeLaunch outcome disk now).1.manifestTmp = disk.manifestTmp ∧
      (resumeLaunch outcome disk now).1.chunks = disk.chunks := by
  cases now with
  | loadState =>
    rw [resumeLaunch]
    split_ifs <;> exact ⟨rfl, rfl, rfl⟩
  | rename =>
    rw [resumeLaunch]
    split
    · split_ifs <;> exact ⟨rfl, rfl, rfl⟩
    · exact ⟨rfl, rfl, rfl⟩
  | mkdir | writeState | launched | rejected => exact ⟨rfl, rfl, rfl⟩

variable {e : Event}

theorem Inv.step (h : Inv d s docs) (hmeets : Meets d s e) : ∃ docs', Inv d (next d s e) docs' := by
  cases e with
  | addDocument name markdown => exact ⟨docs, h.begin trivial nofun⟩
  | launch => exact ⟨docs, h.begin trivial nofun⟩
  | loadAllChunks => exact ⟨docs, h.begin trivial nofun⟩
  | answer i outcome addedAt =>
    rw [next]
    split
    case h_1 call hcall =>
      cases call with
      | upload name markdown now =>
        exact h.answerUpload hcall (hmeets name markdown now hcall) addedAt
      | launch now =>
        obtain ⟨hmanifest, htmp, hchunks⟩ := resumeLaunch_documents outcome s.disk now
        refine ⟨docs, h.quiet hcall (fun _ _ _ => ?_) trivial hmanifest
          (fun _ _ => congrFun hchunks _) fun manifest hmanifest => ?_⟩
        · exact ⟨nofun, nofun⟩
        · exact h.tmp manifest (htmp ▸ hmanifest)
      | load now =>
        refine ⟨docs, h.quiet hcall (fun _ _ _ => ?_)
          (h.sane_resumeLoad (h.calls i _ hcall) outcome) rfl (fun _ _ => rfl) h.tmp⟩
        exact ⟨nofun, nofun⟩
    case h_2 => exact ⟨docs, h⟩

/-! ### Steps that do not meet the condition -/

theorem returned_next (h : Returned s i markdown entry) (e : Event) :
    Returned (next d s e) i markdown entry := by
  obtain ⟨name, hcall⟩ := h
  have hlength : i < s.calls.length := (List.getElem?_eq_some_iff.mp hcall).1
  cases e with
  | addDocument | launch | loadAllChunks =>
    exact ⟨name, (getElem?_append_left hlength).trans hcall⟩
  | answer j outcome addedAt =>
    rw [next]
    split
    case h_1 call hj =>
      refine ⟨name, ?_⟩
      by_cases hij : j = i
      · subst hij
        rw [hcall] at hj
        cases hj
        exact getElem?_set_self hlength
      · exact (getElem?_set_ne hij).trans hcall
    case h_2 => exact ⟨name, hcall⟩

section

variable (h : Inv d s docs)

include h

theorem Inv.returned_of_mem {doc : Entry × Utf16} (hdoc : doc ∈ docs) (e : Event) :
    ∃ j, Returned (next d s e) j doc.2 doc.1 := by
  obtain ⟨j, hj⟩ := h.owned doc hdoc
  exact ⟨j, returned_next hj e⟩

/-- A manifest that a call writes is all documents and a new one, or it has an entry with a
listed id. -/
theorem Inv.extended_eq (hextended : Extended docs manifest)
    (hdocs : ∀ doc ∈ docs, doc.1 ∈ manifest) (hentry : entry ∈ manifest)
    (hfresh : ∀ doc ∈ docs, doc.1.docId ≠ entry.docId) :
    manifest = docs.map Prod.fst ++ [entry] := by
  obtain ⟨front, last, rfl, hfront, hlast⟩ := hextended
  have hentry' : entry = last := by
    rcases mem_append.mp hentry with hmem | hmem
    · obtain ⟨doc, hdoc, rfl⟩ := mem_map.mp (hfront.subset hmem)
      exact absurd rfl (hfresh doc hdoc)
    · exact mem_singleton.mp hmem
  rcases hfront.length_le.lt_or_eq with hlt | heq
  · rw [length_map] at hlt
    have hid := h.ids front.length docs[front.length] (getElem?_eq_getElem hlt)
    exact absurd (hid.trans (hlast.symm.trans (congrArg Entry.docId hentry'.symm)))
      (hfresh _ (getElem_mem hlt))
  · rw [hfront.eq_of_length heq, hentry']

theorem Inv.alone_writeChunks
    (hcall : s.calls[i]? = some (.upload name markdown (.writeChunks manifest))) {addedAt : Utf16}
    (hkeeps : Keeps d s (.answer i outcome addedAt)) :
    Alone d s.disk outcome markdown (.writeChunks manifest) := by
  intro listed hlisted hid
  obtain ⟨⟨manifest', hkept⟩, -⟩ := hkeeps
  rw [h.manifest] at hlisted
  cases hlisted
  rw [List.map_map] at hid
  obtain ⟨doc, hdoc, hsame⟩ := mem_map.mp hid
  obtain ⟨j, hj⟩ := h.returned_of_mem hdoc (.answer i outcome addedAt)
  have hsame' : doc.1.docId = docId manifest.length := hsame
  have hwritten : (next d s (.answer i outcome addedAt)).disk.chunks (docId manifest.length) =
      written outcome (s.disk.chunks (docId manifest.length))
        (chunkDocument d markdown (docId manifest.length)) := by
    rw [next, hcall]
    exact Function.update_self (docId manifest.length) _ _
  rw [← hwritten, ← hsame', hkept.chunks j _ _ hj, h.chunks doc hdoc, chunksOf]

theorem Inv.alone_rename
    (hcall : s.calls[i]? = some (.upload name markdown (.rename manifest entry)))
    {addedAt : Utf16} (hkeeps : Keeps d s (.answer i outcome addedAt)) :
    Alone d s.disk outcome markdown (.rename manifest entry) := by
  intro hdone file htmp
  obtain ⟨⟨manifest', hkept⟩, hdraft⟩ := hkeeps
  obtain ⟨hfront, hid⟩ := h.calls i _ hcall
  have hlength : i < s.calls.length := (List.getElem?_eq_some_iff.mp hcall).1
  have hnext : next d s (.answer i outcome addedAt) =
      ⟨{ s.disk with manifest := some file, manifestTmp := none },
        s.calls.set i (.upload name markdown (.returned entry))⟩ := by
    simp only [next, hcall, resume, resumeUpload, htmp, if_pos hdone]
  have hreturned : Returned (next d s (.answer i outcome addedAt)) i markdown entry := by
    rw [hnext]
    exact ⟨name, getElem?_set_self hlength⟩
  have hnot (markdown' : Utf16) (entry' : Entry) : ¬Returned s i markdown' entry' := by
    rintro ⟨name', hcall'⟩
    rw [hcall] at hcall'
    cases hcall'
  have hfresh : ∀ doc ∈ docs, doc.1.docId ≠ entry.docId := by
    intro doc hdoc hsame
    obtain ⟨j, hj⟩ := h.owned doc hdoc
    have hij := hkept.apart j i _ _ _ _ (returned_next hj _) hreturned hsame
    exact hnot _ _ (hij ▸ hj)
  have hall : manifest = docs.map Prod.fst := by
    rcases hfront.length_le.lt_or_eq with hlt | heq
    · rw [length_map] at hlt
      have hdoc := h.ids manifest.length docs[manifest.length] (getElem?_eq_getElem hlt)
      exact absurd (hdoc.trans hid.symm) (hfresh _ (getElem_mem hlt))
    · exact hfront.eq_of_length heq
  have hmem (j : ℕ) (markdown' : Utf16) (entry' : Entry)
      (hj : Returned (next d s (.answer i outcome addedAt)) j markdown' entry') :
      entry' ∈ manifest' :=
    mem_of_mem_filter (hkept.listed j _ _ hj ▸ mem_singleton.mpr rfl)
  have hfile : file = .whole manifest' := by
    have hread := hkept.readable
    rw [hnext] at hread
    cases file with
    | whole value =>
      cases hread
      rfl
    | cut => cases hread
  have hchunks := hkept.chunks i _ _ hreturned
  rw [hnext] at hchunks
  have hmanifest : manifest' = docs.map Prod.fst ++ [entry] := by
    refine h.extended_eq (h.tmp manifest' (hfile ▸ htmp)) (fun doc hdoc => ?_)
      (hmem i _ _ hreturned) hfresh
    obtain ⟨j, hj⟩ := h.returned_of_mem hdoc (.answer i outcome addedAt)
    exact hmem j _ _ hj
  refine ⟨?_, ?_, hchunks, hdraft i _ _ hreturned (hnot _ _)⟩
  · rw [hfile, hmanifest, hall]
  · rw [h.manifest, hall]

theorem Inv.meets_of_keeps (hkeeps : Keeps d s e) : Meets d s e := by
  cases e with
  | addDocument | launch | loadAllChunks => trivial
  | answer i outcome addedAt =>
    intro name markdown now hcall
    cases now with
    | writeChunks manifest => exact h.alone_writeChunks hcall hkeeps
    | rename manifest entry => exact h.alone_rename hcall hkeeps
    | loadState | mkdir | loadManifest | writeManifest | returned | rejected => trivial

end

/-! ### Runs -/

theorem rename_of_returned {name addedAt : Utf16} {now : Uploading}
    (h : (resumeUpload d outcome disk name markdown addedAt now).2 = .returned entry) :
    now = .returned entry ∨ outcome = .done ∧
      ∃ manifest file, now = .rename manifest entry ∧ disk.manifestTmp = some file := by
  cases now with
  | loadState =>
    rw [resumeUpload] at h
    split_ifs at h
  | loadManifest =>
    rw [resumeUpload] at h
    split at h
    case h_1 =>
      rw [Outcome.proceed] at h
      split_ifs at h
    case h_2 => cases h
  | mkdir | writeChunks | writeManifest =>
    rw [resumeUpload, Outcome.proceed] at h
    split_ifs at h
  | rename manifest other =>
    rw [resumeUpload] at h
    split at h
    case h_1 file htmp =>
      split_ifs at h with hdone
      cases h
      exact .inr ⟨hdone, manifest, file, rfl, htmp⟩
    case h_2 => cases h
  | returned other => exact .inl h
  | rejected => cases h

theorem draft_of_meets (hmeets : Meets d s e) (h : Returned (next d s e) i markdown entry)
    (hnot : ¬Returned s i markdown entry) : s.disk.state = .whole .draft := by
  cases e with
  | addDocument | launch | loadAllChunks =>
    refine absurd ((returned_begin ?_ i markdown entry).mp h) hnot
    nofun
  | answer j outcome addedAt =>
    rw [next] at h
    split at h
    case h_1 call hcall =>
      by_cases hij : j = i
      · subst hij
        obtain ⟨name, hafter⟩ := h
        rw [getElem?_set_self (List.getElem?_eq_some_iff.mp hcall).1] at hafter
        cases call with
        | upload name' markdown' now =>
          injection hafter with hafter
          injection hafter with hname hmarkdown hnow
          subst hname hmarkdown
          rcases rename_of_returned hnow with rfl | ⟨hdone, manifest, file, rfl, htmp⟩
          · exact absurd ⟨name', hcall⟩ hnot
          · exact (hmeets name' markdown' _ hcall hdone file htmp).2.2.2
        | launch now => cases hafter
        | load now => cases hafter
      · exact absurd ((returned_set_ne hij).mp h) hnot
    case h_2 => exact absurd h hnot

/-- The documents are kept, by every step of a run of calls and answers in any order, just if
every answer finds the call alone with its files. -/
theorem documents_kept_iff (d : Doubles) (events : List Event) :
    Each (next d) (Keeps d) created events ↔ Each (next d) (Meets d) created events := by
  refine each_iff (I := fun s => ∃ docs, Inv d s docs) ?_ ?_ ⟨[], Inv.created d⟩ events
  · rintro s e ⟨docs, h⟩
    refine ⟨h.meets_of_keeps, fun hmeets => ⟨?_, ?_⟩⟩
    · obtain ⟨docs', h'⟩ := h.step hmeets
      exact ⟨_, h'.kept⟩
    · exact fun i markdown entry => draft_of_meets hmeets
  · rintro s e ⟨docs, h⟩ hmeets
    exact h.step hmeets

/-- Two uploads that read the empty manifest, one after the other, and then write. -/
def overlapping : List Event :=
  [.addDocument [] (ascii "a"), .addDocument [] (ascii "b"), .answer 0 .done [],
    .answer 0 .done [], .answer 0 .done [], .answer 1 .done [], .answer 1 .done [],
    .answer 1 .done [], .answer 0 .done [], .answer 1 .done [], .answer 0 .done [],
    .answer 0 .done [], .answer 1 .done []]

/-- Both return the first id. -/
theorem upload_lost :
    ¬∀ (d : Doubles) (events : List Event), Each (next d) (Keeps d) created events := by
  intro h
  have hlast := ((each_append overlapping [.answer 1 .done []]).mp (h default _)).2.1
  obtain ⟨⟨manifest, hkept⟩, -⟩ := hlast
  exact absurd (hkept.apart 0 1 _ _ _ _ ⟨_, rfl⟩ ⟨_, rfl⟩ rfl) (by decide)

end Ds4Studio.Research.Documents
