import Ds4Studio.Lib.Run
import Ds4Studio.Lib.Utf8
import Ds4Studio.Web.ReadTool

/-!
Texts that are stored under the digest of their bytes. A file that is there is taken for the whole
text, although it is written in place; ranges of it are bytes, and what is read of them is text.
-/

namespace Ds4Studio.Web

open Chunks List Option

/-! ### The store -/

def isHexDigit (c : Char) : Bool := ('0' ≤ c && c ≤ '9') || ('a' ≤ c && c ≤ 'f')

/-- SHA-256, of which the digest is used in hexadecimal digits. -/
structure Sha256 where
  hex : Bytes → List Char
  hex_length : ∀ bytes, (hex bytes).length = 64
  hex_digit : ∀ bytes, (hex bytes).all isHexDigit = true

/-- What `put` returns -/
structure PutResult where
  id : List Char
  bytes : ℕ
  created : Bool
deriving DecidableEq

/-- The files by their digests; the texts of all calls of `put`, and the results of those that
returned. -/
structure ToolBlobStore where
  files : List Char → Option Bytes
  texts : List (List Char)
  returned : List (List Char × PutResult)

/-- How a call of `put` ends: a call in front of the write fails, the file exists, or it is created
and gets so many bytes, whereupon `put` returns, fails or is cut by a crash. -/
inductive PutEnd where
  | refused
  | existing
  | created (written : ℕ) (returns : Bool)

/-- A call. The text has U+FFFD where it had half of a surrogate pair. -/
structure Put where
  text : List Char
  ending : PutEnd

namespace ToolBlobStore

def empty : ToolBlobStore := ⟨fun _ => none, [], []⟩

def blobId (sha : Sha256) (text : List Char) : List Char :=
  "sha256:".toList ++ sha.hex (Utf8.encode text)

def result (sha : Sha256) (text : List Char) (created : Bool) : PutResult :=
  ⟨blobId sha text, byteLength text, created⟩

def put (sha : Sha256) (s : ToolBlobStore) (call : Put) : Option ToolBlobStore :=
  let bytes := Utf8.encode call.text
  let hash := sha.hex bytes
  let texts := call.text :: s.texts
  match call.ending, s.files hash with
  | .refused, _ => some { s with texts }
  | .existing, some _ =>
      some { s with texts, returned := (call.text, result sha call.text false) :: s.returned }
  | .created written returns, none =>
      if written ≤ bytes.length then
        some {
          files := Function.update s.files hash (some (bytes.take written))
          texts
          returned :=
            if returns then (call.text, result sha call.text true) :: s.returned else s.returned }
      else none
  | _, _ => none

/-- `BLOB_ID_PATTERN` -/
def isValidId (id : List Char) : Bool :=
  id.take 7 = "sha256:".toList && (id.drop 7).length = 64 && (id.drop 7).all isHexDigit

/-- `MAX_READ_LENGTH` -/
def maxReadLength : ℕ := 200000

/-- The bytes of a buffer; `Buffer.alloc` throws where there is no number. -/
def bufferSize : Num → Option ℕ
  | .fin q => some q.floor.toNat
  | _ => none

/-- A place in a file; `fd.read` throws where it is not whole. -/
def position : Num → Option ℕ
  | .fin q => if q.den = 1 then some q.floor.toNat else none
  | _ => none

/-- `buffer.toString("utf8")`, by its characters -/
def decoded (bytes : Bytes) : List Char := (Utf8.decode bytes).map Prod.fst

/-- Nothing also where the source throws. -/
def get (s : ToolBlobStore) (id : List Char) (offset length : Num) : Option (List Char) :=
  if !isValidId id then none
  else if offset.lt (.nat 0) || length.le (.nat 0) || (Num.nat maxReadLength).lt length then none
  else
    match s.files (id.drop 7) with
    | none => none
    | some bytes =>
        if (Num.nat bytes.length).le offset then some []
        else do
          let most ← bufferSize length
          let first ← position offset
          some (decoded ((bytes.drop first).take most))

end ToolBlobStore

/-- A range as `retrieve_context_blob` reports it. -/
structure BlobRange where
  id : List Char
  offset : Num
  bytes : ℕ
  requestedLength : Num
  content : List Char

/-- `Math.trunc` -/
def trunc : Num → Num
  | .fin q => .fin (if 0 ≤ q then q.floor else q.ceil)
  | x => x

/-- The arguments are those that `Number` gives; no range is an error. -/
def toolRetrieveContextBlob (s : ToolBlobStore) (id : List Char) (offset length : Num) :
    Option BlobRange :=
  let offset := (Num.nat 0).max (trunc (offset.orElse (.nat 0)))
  let requestedLength := trunc (length.orElse (.nat 20000))
  if id = [] ∨ requestedLength.lt (.nat 1) ∨ (Num.nat 200000).lt requestedLength then none
  else
    (s.get id offset requestedLength).map fun content =>
      ⟨id, offset, byteLength content, requestedLength, content⟩

/-! ### Reading a blob by ranges -/

/-- Consecutive ranges: where each begins, and its length. -/
def ranges : ℕ → List ℕ → List (ℕ × ℕ)
  | _, [] => []
  | offset, length :: rest => (offset, length) :: ranges (offset + length) rest

/-- The bytes of consecutive ranges. -/
def pieces (bytes : Bytes) (lengths : List ℕ) : List Bytes :=
  (ranges 0 lengths).map fun r => (bytes.drop r.1).take r.2

/-- The ranges of the lengths give the text one after the other, each with the number of its
bytes. -/
def Recovers (s : ToolBlobStore) (stored : PutResult) (text : List Char) (lengths : List ℕ) :
    Prop :=
  ∃ found : List BlobRange,
    ((ranges 0 lengths).map fun r =>
      toolRetrieveContextBlob s stored.id (.nat r.1) (.nat r.2)) = found.map some ∧
    ((ranges 0 lengths).map fun r => s.get stored.id (.nat r.1) (.nat r.2)) =
      (found.map fun f => some f.content) ∧
    (found.map BlobRange.content).flatten = text ∧
    found.map BlobRange.bytes = (ranges 0 lengths).map fun r => min r.2 (stored.bytes - r.1)

/-- A file that is created gets all of its bytes. -/
def WritesWhole (_ : ToolBlobStore) (call : Put) : Prop :=
  ∀ written returns, call.ending = .created written returns →
    written = (Utf8.encode call.text).length

/-- A run of calls -/
def PutRun (sha : Sha256) : ToolBlobStore → Prop :=
  Run.Guarded (fun s call t => s.put sha call = some t) WritesWhole ToolBlobStore.empty

/-- No two of the texts have one digest. -/
def CollisionFree (sha : Sha256) (texts : List (List Char)) : Prop :=
  ∀ text ∈ texts, ∀ other ∈ texts,
    sha.hex (Utf8.encode text) = sha.hex (Utf8.encode other) →
      Utf8.encode text = Utf8.encode other

/-! ### What the store holds -/

/-- Every file holds a text that was put, under its digest; for every call that returned there is
one, and its result names it. -/
structure Holds (sha : Sha256) (s : ToolBlobStore) : Prop where
  whole : ∀ hash bytes, s.files hash = some bytes →
    ∃ text ∈ s.texts, bytes = Utf8.encode text ∧ hash = sha.hex (Utf8.encode text)
  kept : ∀ entry ∈ s.returned, entry.1 ∈ s.texts ∧
    entry.2.id = ToolBlobStore.blobId sha entry.1 ∧ entry.2.bytes = byteLength entry.1 ∧
    (s.files (sha.hex (Utf8.encode entry.1))).isSome

variable {s : ToolBlobStore} {sha : Sha256}

theorem put_cases {t : ToolBlobStore} {call : Put} (h : s.put sha call = some t) :
    t = { s with texts := call.text :: s.texts } ∨
      (s.files (sha.hex (Utf8.encode call.text))).isSome ∧
        t = { s with
          texts := call.text :: s.texts
          returned := (call.text, ToolBlobStore.result sha call.text false) :: s.returned } ∨
      ∃ written returns, call.ending = .created written returns ∧
        t.files = Function.update s.files (sha.hex (Utf8.encode call.text))
          (some ((Utf8.encode call.text).take written)) ∧
        t.texts = call.text :: s.texts ∧
        (t.returned = s.returned ∨
          t.returned = (call.text, ToolBlobStore.result sha call.text true) :: s.returned) := by
  unfold ToolBlobStore.put at h
  dsimp only at h
  split at h
  case h_1 => exact .inl (some.inj h).symm
  case h_2 hfile => exact .inr (.inl ⟨by rw [hfile]; rfl, (some.inj h).symm⟩)
  case h_3 written returns hending hfile =>
    split at h
    case isTrue =>
      obtain rfl := some.inj h
      refine .inr (.inr ⟨written, returns, hending, rfl, rfl, ?_⟩)
      cases returns with
      | false => exact .inl rfl
      | true => exact .inr rfl
    case isFalse => exact nomatch h
  case h_4 => exact nomatch h

theorem Holds.put {t : ToolBlobStore} {call : Put} (hs : Holds sha s)
    (h : s.put sha call = some t) (hwhole : WritesWhole s call) : Holds sha t := by
  have hold : ∀ hash bytes, s.files hash = some bytes →
      ∃ text ∈ call.text :: s.texts,
        bytes = Utf8.encode text ∧ hash = sha.hex (Utf8.encode text) := by
    intro hash bytes hfile
    obtain ⟨text, htext, heq⟩ := hs.whole hash bytes hfile
    exact ⟨text, mem_cons_of_mem _ htext, heq⟩
  rcases put_cases h with rfl | ⟨hsome, rfl⟩ | ⟨written, returns, hending, hfiles, htexts, hret⟩
  · exact ⟨hold, fun entry hentry =>
      (hs.kept entry hentry).imp_left (mem_cons_of_mem _)⟩
  · refine ⟨hold, fun entry hentry => ?_⟩
    rcases mem_cons.mp hentry with rfl | hentry
    · exact ⟨mem_cons_self, rfl, rfl, hsome⟩
    · exact (hs.kept entry hentry).imp_left (mem_cons_of_mem _)
  · rw [hwhole written returns hending, take_length] at hfiles
    constructor
    · intro hash bytes hfile
      rw [htexts]
      rw [hfiles, Function.update_apply] at hfile
      split at hfile
      case isTrue hhash =>
        exact ⟨call.text, mem_cons_self, (some.inj hfile).symm, hhash⟩
      case isFalse => exact hold hash bytes hfile
    · have hfile : ∀ hash, (s.files hash).isSome → (t.files hash).isSome := by
        intro hash hhash
        rw [hfiles, Function.update_apply]
        split
        case isTrue => rfl
        case isFalse => exact hhash
      have hkept : ∀ entry ∈ s.returned, entry.1 ∈ t.texts ∧
          entry.2.id = ToolBlobStore.blobId sha entry.1 ∧ entry.2.bytes = byteLength entry.1 ∧
          (t.files (sha.hex (Utf8.encode entry.1))).isSome := by
        intro entry hentry
        obtain ⟨htext, hid, hbytes, hsome⟩ := hs.kept entry hentry
        exact ⟨htexts ▸ mem_cons_of_mem _ htext, hid, hbytes, hfile _ hsome⟩
      rcases hret with hret | hret
      · rw [hret]
        exact hkept
      · rw [hret]
        intro entry hentry
        rcases mem_cons.mp hentry with rfl | hentry
        · refine ⟨htexts ▸ mem_cons_self, rfl, rfl, ?_⟩
          rw [hfiles, Function.update_self]
          rfl
        · exact hkept entry hentry

theorem holds_empty (sha : Sha256) : Holds sha ToolBlobStore.empty :=
  ⟨fun _ _ hfile => absurd hfile (some_ne_none _).symm,
    fun _ hentry => absurd hentry not_mem_nil⟩

theorem PutRun.holds (h : PutRun sha s) : Holds sha s := by
  refine h.invariant (fun _ _ _ hs hstep hguard => ?_) (holds_empty sha)
  exact hs.put hstep hguard

theorem Holds.file (hs : Holds sha s) (hfree : CollisionFree sha s.texts)
    {entry : List Char × PutResult} (hentry : entry ∈ s.returned) :
    s.files (sha.hex (Utf8.encode entry.1)) = some (Utf8.encode entry.1) := by
  obtain ⟨htext, -, -, hsome⟩ := hs.kept entry hentry
  obtain ⟨bytes, hfile⟩ := isSome_iff_exists.mp hsome
  obtain ⟨other, hother, rfl, hhash⟩ := hs.whole _ _ hfile
  rw [hfile, hfree entry.1 htext other hother hhash]

/-! ### What the ranges give -/

theorem isValidId_blobId (sha : Sha256) (text : List Char) :
    ToolBlobStore.isValidId (ToolBlobStore.blobId sha text) = true := by
  have hdrop : (ToolBlobStore.blobId sha text).drop 7 = sha.hex (Utf8.encode text) := rfl
  unfold ToolBlobStore.isValidId
  rw [hdrop, sha.hex_length, sha.hex_digit]
  rfl

theorem trunc_nat (n : ℕ) : trunc (.nat n) = .nat n := by
  have hfloor : ((n : ℚ)).floor = (n : ℤ) := Rat.floor_intCast n
  simp only [trunc, Num.nat, hfloor, Nat.cast_nonneg, if_true, Int.cast_natCast]

theorem get_of_file {id : List Char} {bytes : Bytes} {offset length : ℕ}
    (hid : ToolBlobStore.isValidId id = true) (hfile : s.files (id.drop 7) = some bytes)
    (hpos : 1 ≤ length) (hle : length ≤ 200000) :
    s.get id (.nat offset) (.nat length) =
      some (ToolBlobStore.decoded ((bytes.drop offset).take length)) := by
  have hargs : ((Num.nat offset).lt (.nat 0) || (Num.nat length).le (.nat 0) ||
      (Num.nat ToolBlobStore.maxReadLength).lt (.nat length)) = false := by
    have h1 : (Num.nat offset).lt (.nat 0) = false :=
      Bool.eq_false_iff.mpr fun h => Nat.not_lt_zero _ (Num.lt_nat.mp h)
    have h2 : (Num.nat length).le (.nat 0) = false :=
      Bool.eq_false_iff.mpr fun h => Nat.not_succ_le_zero _ (hpos.trans (Num.le_nat.mp h))
    have h3 : (Num.nat ToolBlobStore.maxReadLength).lt (.nat length) = false :=
      Bool.eq_false_iff.mpr fun h => Nat.not_lt.mpr hle (Num.lt_nat.mp h)
    rw [h1, h2, h3]
    rfl
  unfold ToolBlobStore.get
  rw [hid, hargs, hfile]
  simp only [Bool.not_true, Bool.false_eq_true, if_false]
  split
  case isTrue hpast =>
    rw [drop_eq_nil_of_le (Num.le_nat.mp hpast), take_nil]
    rfl
  case isFalse => rfl

theorem retrieve_of_get {id content : List Char} {offset length : ℕ} (hid : id ≠ [])
    (hpos : 1 ≤ length) (hle : length ≤ 200000)
    (hget : s.get id (.nat offset) (.nat length) = some content) :
    toolRetrieveContextBlob s id (.nat offset) (.nat length) =
      some ⟨id, .nat offset, byteLength content, .nat length, content⟩ := by
  have hoffset : (Num.nat 0).max (trunc ((Num.nat offset).orElse (.nat 0))) = .nat offset := by
    have horElse : (Num.nat offset).orElse (.nat 0) = .nat offset := by
      unfold Num.orElse
      split
      case isTrue h =>
        rcases h with h | h
        · exact absurd h (by simp [Num.nat])
        · have hzero : Num.nat 0 = .fin 0 := by simp [Num.nat]
          exact hzero.trans h.symm
      case isFalse => rfl
    rw [horElse, trunc_nat]
    simp [Num.nat]
  have hlength : trunc ((Num.nat length).orElse (.nat 20000)) = .nat length := by
    have hne : ¬ (Num.nat length = .nan ∨ Num.nat length = .fin 0) := by
      have hzero : length ≠ 0 := by omega
      simp [Num.nat, hzero]
    rw [Num.orElse, if_neg hne, trunc_nat]
  have hargs : ¬ (id = [] ∨ (Num.nat length).lt (.nat 1) = true ∨
      (Num.nat 200000).lt (.nat length) = true) := by
    rw [Num.lt_nat, Num.lt_nat]
    rintro (h | h | h)
    · exact hid h
    · omega
    · omega
  unfold toolRetrieveContextBlob
  rw [hoffset, hlength, if_neg hargs, hget]
  rfl

theorem byteLength_eq (text : List Char) : byteLength text = (Utf8.encode text).length := by
  unfold byteLength Utf8.encode
  rw [length_flatMap]
  simp only [String.length_utf8EncodeChar]

theorem flatten_pieces (bytes : Bytes) (lengths : List ℕ) :
    (pieces bytes lengths).flatten = bytes.take lengths.sum := by
  have hfrom : ∀ offset, ((ranges offset lengths).map fun r =>
      (bytes.drop r.1).take r.2).flatten = (bytes.drop offset).take lengths.sum := by
    induction lengths with
    | nil => exact fun offset => by rw [sum_nil]; rfl
    | cons length rest ih =>
      intro offset
      rw [ranges, map_cons, flatten_cons, ih, sum_cons, take_add, drop_drop]
  exact hfrom 0

theorem text_eq_of_decoded {bytes bytes' : List Bytes}
    (h : bytes.flatMap ToolBlobStore.decoded = bytes'.flatMap ToolBlobStore.decoded) :
    bytes.flatMap Utf8.text = bytes'.flatMap Utf8.text := by
  have hunits : ∀ d : Utf8.Decoded,
      (Utf8.units d).map Prod.fst = (Utf8.units (d.1, 0)).map Prod.fst := by
    intro d
    unfold Utf8.units
    split <;> rfl
  have htext : ∀ l : List Bytes, l.flatMap Utf8.text =
      (l.flatMap ToolBlobStore.decoded).flatMap fun c => (Utf8.units (c, 0)).map Prod.fst := by
    intro l
    rw [flatMap_assoc]
    refine flatMap_congr fun piece _ => ?_
    unfold Utf8.text Utf8.decodeUnits ToolBlobStore.decoded
    rw [map_flatMap, flatMap_map]
    exact flatMap_congr fun d _ => hunits d
  rw [htext, htext, h]

theorem decoded_encode (text : List Char) : ToolBlobStore.decoded (Utf8.encode text) = text := by
  unfold ToolBlobStore.decoded
  rw [Utf8.decode_encode, List.map_map]
  exact map_id text

/-- The texts of the pieces make the text just where no character is cut. -/
theorem decoded_pieces_iff {text : List Char} {parts : List Bytes}
    (hparts : parts.flatten = Utf8.encode text) :
    parts.flatMap ToolBlobStore.decoded = text ↔ Apart Utf8.Cuts parts := by
  constructor
  · intro h
    have htext : parts.flatMap Utf8.text = Utf8.text parts.flatten := by
      rw [text_eq_of_decoded, hparts, flatMap_singleton]
      rw [h, flatMap_singleton, decoded_encode]
    have hshown : (Utf8.decodeUnits parts.flatten).map Prod.fst =
        (parts.flatMap Utf8.decodeUnits).map Prod.fst := by
      rw [map_flatMap]
      exact htext.symm
    have hlen := congrArg length hshown
    rw [length_map, length_map] at hlen
    have hgarbled := (Utf8.reads_decodeUnits.flatten_grows parts).of_length hlen.ge
    exact (Utf8.reads_decodeUnits.flatten_eq_iff parts).mp
      (Utf8.eq_of_garbled_shown hgarbled hshown).symm
  · intro h
    have hdecoded : parts.flatMap ToolBlobStore.decoded =
        (parts.flatMap Utf8.decode).map Prod.fst := map_flatMap.symm
    rw [hdecoded, Utf8.flatMap_decode h, hparts]
    exact decoded_encode text

theorem byteLength_decoded {text : List Char} {parts : List Bytes}
    (hparts : parts.flatten = Utf8.encode text) (h : Apart Utf8.Cuts parts) :
    ∀ part ∈ parts, byteLength (ToolBlobStore.decoded part) = part.length := by
  intro part hpart
  have hsize : ∀ d ∈ Utf8.decode part, d.1.utf8Size = d.2 := by
    intro d hd
    have hmem : d ∈ Utf8.decode (Utf8.encode text) := by
      rw [← hparts, ← Utf8.flatMap_decode h]
      exact mem_flatMap.mpr ⟨part, hpart, hd⟩
    rw [Utf8.decode_encode] at hmem
    obtain ⟨c, -, rfl⟩ := mem_map.mp hmem
    exact (String.length_utf8EncodeChar c).symm
  rw [← Utf8.total_decode part]
  unfold byteLength ToolBlobStore.decoded Utf8.total
  rw [List.map_map]
  exact congrArg sum (map_congr_left hsize)

theorem mem_ranges {offset : ℕ} {lengths : List ℕ} {r : ℕ × ℕ} (h : r ∈ ranges offset lengths) :
    r.2 ∈ lengths := by
  induction lengths generalizing offset with
  | nil => exact absurd h not_mem_nil
  | cons length rest ih =>
    rcases mem_cons.mp h with rfl | h
    · exact mem_cons_self
    · exact mem_cons_of_mem _ (ih h)

/-- After calls that write whole what they create, a text whose `put` returned is read back by
ranges just where no range ends inside of a character. -/
theorem blob_recoverable (sha : Sha256) {s : ToolBlobStore} (hrun : PutRun sha s)
    (hfree : CollisionFree sha s.texts) {text : List Char} {stored : PutResult}
    (hstored : (text, stored) ∈ s.returned) {lengths : List ℕ}
    (hlengths : ∀ length ∈ lengths, 1 ≤ length ∧ length ≤ 200000)
    (hcover : stored.bytes ≤ lengths.sum) :
    Recovers s stored text lengths ↔ Apart Utf8.Cuts (pieces (Utf8.encode text) lengths) := by
  have hholds := hrun.holds
  obtain ⟨-, hid, hbytes, -⟩ := hholds.kept _ hstored
  have hfile := hholds.file hfree hstored
  rw [byteLength_eq] at hbytes
  have hparts : (pieces (Utf8.encode text) lengths).flatten = Utf8.encode text := by
    rw [flatten_pieces, take_of_length_le (hbytes ▸ hcover)]
  have hget : ∀ r ∈ ranges 0 lengths, s.get stored.id (.nat r.1) (.nat r.2) =
      some (ToolBlobStore.decoded (((Utf8.encode text).drop r.1).take r.2)) := by
    intro r hr
    obtain ⟨hpos, hle⟩ := hlengths r.2 (mem_ranges hr)
    rw [hid]
    exact get_of_file (isValidId_blobId sha text) hfile hpos hle
  have hcontents : (pieces (Utf8.encode text) lengths).flatMap ToolBlobStore.decoded =
      ((ranges 0 lengths).map fun r =>
        ToolBlobStore.decoded (((Utf8.encode text).drop r.1).take r.2)).flatten := by
    rw [pieces, flatMap_map]
    rfl
  have hapart := decoded_pieces_iff hparts
  rw [hcontents] at hapart
  rw [← hapart]
  constructor
  · rintro ⟨found, -, hgets, hflat, -⟩
    rw [map_congr_left hget] at hgets
    have hsome := congrArg (filterMap id) hgets
    simp only [filterMap_map, Function.comp_def, id_eq, filterMap_eq_map'] at hsome
    rw [hsome]
    exact hflat
  · intro hflat
    have hne : stored.id ≠ [] := hid ▸ cons_ne_nil _ _
    refine ⟨(ranges 0 lengths).map fun r =>
      let content := ToolBlobStore.decoded (((Utf8.encode text).drop r.1).take r.2)
      ⟨stored.id, .nat r.1, byteLength content, .nat r.2, content⟩, ?_, ?_, ?_, ?_⟩
    · rw [List.map_map]
      refine map_congr_left fun r hr => ?_
      obtain ⟨hpos, hle⟩ := hlengths r.2 (mem_ranges hr)
      exact retrieve_of_get hne hpos hle (hget r hr)
    · rw [List.map_map]
      exact map_congr_left hget
    · rw [List.map_map]
      exact hflat
    · rw [List.map_map]
      refine map_congr_left fun r hr => ?_
      have hlen := byteLength_decoded hparts (hapart.mp hflat) _ (mem_map_of_mem hr)
      refine hlen.trans ?_
      rw [length_take, length_drop, hbytes]

/-- SHA-256 on `é` and on `abc`. -/
def sha256Sample : Sha256 where
  hex bytes :=
    if bytes = [0xc3, 0xa9] then
      "4a99557e4033c3539de2eb65472017cad5f9557f7a0625a09f1c3f6e2ba69c4c".toList
    else "ba7816bf8f01cfea414140de5dae2223b00361a396177a9cb410ff61f20015ad".toList
  hex_length bytes := by split <;> decide
  hex_digit bytes := by split <;> decide

/-- The store with one text, which was written whole. -/
def accentStore : ToolBlobStore :=
  ((ToolBlobStore.empty.put sha256Sample ⟨"aé".toList, .created 3 true⟩).getD .empty)

theorem blob_recoverable_accent :
    Recovers accentStore (ToolBlobStore.result sha256Sample "aé".toList true) "aé".toList
      [1, 2] := by
  have hput : ToolBlobStore.empty.put sha256Sample ⟨"aé".toList, .created 3 true⟩ =
      some accentStore := rfl
  have hwhole : WritesWhole ToolBlobStore.empty ⟨"aé".toList, .created 3 true⟩ := by
    rintro written returns hending
    obtain ⟨rfl, rfl⟩ := PutEnd.created.inj hending
    rfl
  have hrun : PutRun sha256Sample accentStore := (Run.Guarded.refl _).snoc hput hwhole
  have hfree : CollisionFree sha256Sample accentStore.texts := by
    intro text htext other hother _
    rw [mem_singleton.mp htext, mem_singleton.mp hother]
  exact (blob_recoverable sha256Sample hrun hfree mem_cons_self (by decide)
    (by decide)).mpr (by decide)

/-- A file that a crash has cut is taken for the text by the next call; and a range that ends inside
of a character gives other characters, with more bytes than it has. -/
theorem cut_blobs :
    ((ToolBlobStore.empty.put sha256Sample ⟨"abc".toList, .created 1 false⟩).bind fun s =>
        (s.put sha256Sample ⟨"abc".toList, .existing⟩).map fun t =>
          (t.returned, t.get (ToolBlobStore.blobId sha256Sample "abc".toList) (.nat 0) (.nat 3))) =
      some ([("abc".toList, ToolBlobStore.result sha256Sample "abc".toList false)],
        some "a".toList) ∧
    ((ToolBlobStore.empty.put sha256Sample ⟨"é".toList, .created 2 true⟩).map fun s =>
        [0, 1].map fun offset =>
          (toolRetrieveContextBlob s (ToolBlobStore.blobId sha256Sample "é".toList) (.nat offset)
            (.nat 1)).map fun found => (found.content, found.bytes)) =
      some [some (['\ufffd'], 3), some (['\ufffd'], 3)] := by
  decide

end Ds4Studio.Web
