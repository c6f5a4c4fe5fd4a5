import Ds4Studio.Lib.LittleEndian

/-!
The files of the disk cache. A file is its bytes: a fixed header, the length of
the rendered text, the text, the payload and an optional trailer. An entry is a
file whose name is a hash and whose header promises no more than the file holds.
-/

namespace Ds4Studio.Kvstore

open Bytes List LittleEndian

/-- `DS4_KVSTORE_FIXED_HEADER` -/
def fixedHeader : ℕ := 48

/-- The fields of a file's header. -/
structure Header where
  modelId : UInt8
  quantBits : UInt8
  reason : UInt8
  extFlags : UInt8
  tokens : ℕ
  hits : ℕ
  ctxSize : ℕ
  createdAt : ℕ
  lastUsed : ℕ
  payloadBytes : ℕ
deriving DecidableEq

def reasonUnknown : UInt8 := 0

def reasonAgentSession : UInt8 := 6

/-- `ds4_kvstore_fill_header` -/
def fillHeader (h : Header) : Bytes :=
  [0x4b, 0x56, 0x43, 1, h.quantBits, h.reason, h.extFlags, h.modelId] ++
    put 4 h.tokens ++ put 4 h.hits ++ put 4 h.ctxSize ++ [2, 0, 0, 0] ++
    put 8 h.createdAt ++ put 8 h.lastUsed ++ put 8 h.payloadBytes

@[simp] theorem fillHeader_length (h : Header) : (fillHeader h).length = fixedHeader := by
  simp [fillHeader, fixedHeader]

/-- The number in `width` bytes from an offset on. -/
def field (file : Bytes) (offset width : ℕ) : ℕ := get ((file.drop offset).take width)

/-- `ds4_kvstore_read_header`: the header and the length of the text behind it. -/
def readHeader (file : Bytes) : Option (Header × ℕ) :=
  if file.length < fixedHeader + 4 then none
  else if file.take 4 ≠ [0x4b, 0x56, 0x43, 1] then none
  else if file.getD 20 0 ≠ 2 then none
  else
    let reason := file.getD 5 0
    let h : Header :=
      { quantBits := file.getD 4 0
        reason := if reason ≤ reasonAgentSession then reason else reasonUnknown
        extFlags := file.getD 6 0
        modelId := file.getD 7 0
        tokens := field file 8 4
        hits := field file 12 4
        ctxSize := field file 16 4
        createdAt := field file 24 8
        lastUsed := field file 32 8
        payloadBytes := field file 40 8 }
    if h.tokens ≠ 0 ∧ (h.quantBits = 2 ∨ h.quantBits = 4) then some (h, field file fixedHeader 4)
    else none

theorem field_lt (file : Bytes) (offset width : ℕ) : field file offset width < 256 ^ width := by
  have hlen : ((file.drop offset).take width).length ≤ width := length_take_le _ _
  have hlt := get_lt ((file.drop offset).take width)
  exact lt_of_lt_of_le hlt (Nat.pow_le_pow_right (by omega) hlen)

variable {textBytes : ℕ}

theorem readHeader_length {file : Bytes} {h : Header}
    (hread : readHeader file = some (h, textBytes)) : fixedHeader + 4 ≤ file.length := by
  unfold readHeader at hread
  split at hread
  · contradiction
  · rename_i hlen
    exact not_lt.mp hlen

/-- A header whose fields have the width in which they are written and which passes
the checks of `readHeader`. -/
structure Header.Fits (h : Header) : Prop where
  tokens : 0 < h.tokens ∧ h.tokens < 2 ^ 32
  hits : h.hits < 2 ^ 32
  ctxSize : h.ctxSize < 2 ^ 32
  createdAt : h.createdAt < 2 ^ 64
  lastUsed : h.lastUsed < 2 ^ 64
  payloadBytes : h.payloadBytes < 2 ^ 64
  reason : h.reason ≤ reasonAgentSession
  quantBits : h.quantBits = 2 ∨ h.quantBits = 4

theorem readHeader_fits {file : Bytes} {h : Header}
    (hread : readHeader file = some (h, textBytes)) :
    h.Fits ∧ textBytes = field file fixedHeader 4 := by
  unfold readHeader at hread
  split at hread
  · contradiction
  split at hread
  · contradiction
  split at hread
  · contradiction
  simp only at hread
  split at hread
  · rename_i hfields
    obtain ⟨rfl, rfl⟩ := Prod.mk.inj (Option.some.inj hread)
    refine ⟨⟨⟨Nat.pos_of_ne_zero hfields.1, field_lt file 8 4⟩, field_lt file 12 4,
      field_lt file 16 4, field_lt file 24 8, field_lt file 32 8, field_lt file 40 8, ?_,
      hfields.2⟩, rfl⟩
    by_cases hreason : file.getD 5 0 ≤ reasonAgentSession
    · simpa only [if_pos hreason] using hreason
    · simp only [if_neg hreason]
      decide
  · contradiction

theorem field_cons (b : UInt8) (rest : Bytes) (offset width : ℕ) :
    field (b :: rest) (offset + 1) width = field rest offset width := rfl

theorem field_put (width value : ℕ) (rest : Bytes) :
    field (put width value ++ rest) 0 width = value % 256 ^ width := by
  rw [field, drop_zero, take_left' (put_length width value), get_put]

theorem field_skip {width offset : ℕ} (h : width ≤ offset) (value : ℕ) (rest : Bytes) (n : ℕ) :
    field (put width value ++ rest) offset n = field rest (offset - width) n := by
  unfold field
  rw [drop_append, put_length, drop_eq_nil_of_le (by rw [put_length]; exact h), nil_append]

theorem fillHeader_append (h : Header) (rest : Bytes) :
    fillHeader h ++ rest =
      0x4b :: 0x56 :: 0x43 :: 1 :: h.quantBits :: h.reason :: h.extFlags :: h.modelId ::
        (put 4 h.tokens ++ (put 4 h.hits ++ (put 4 h.ctxSize ++ (2 :: 0 :: 0 :: 0 ::
          (put 8 h.createdAt ++ (put 8 h.lastUsed ++ (put 8 h.payloadBytes ++ rest))))))) := by
  simp only [fillHeader, append_assoc, cons_append, nil_append]

theorem readHeader_fillHeader {h : Header} (hfits : h.Fits) (htext : textBytes < 2 ^ 32)
    (rest : Bytes) :
    readHeader (fillHeader h ++ (put 4 textBytes ++ rest)) = some (h, textBytes) := by
  have hlen : ¬ (fillHeader h ++ (put 4 textBytes ++ rest)).length < fixedHeader + 4 := by
    simp only [length_append, fillHeader_length, put_length]
    omega
  have hbehind : field (fillHeader h ++ (put 4 textBytes ++ rest)) fixedHeader 4 = textBytes := by
    unfold field
    rw [drop_left' (fillHeader_length h), get_take_put_append htext]
  have habi : (fillHeader h ++ (put 4 textBytes ++ rest)).getD 20 0 = 2 := by
    simp [fillHeader_append, getElem?_append_right]
  have htokens : field (fillHeader h ++ (put 4 textBytes ++ rest)) 8 4 = h.tokens := by
    simp only [fillHeader_append, field_cons, field_put]
    exact Nat.mod_eq_of_lt hfits.tokens.2
  have hhits : field (fillHeader h ++ (put 4 textBytes ++ rest)) 12 4 = h.hits := by
    simpa [fillHeader_append, field_cons, field_put, field_skip] using hfits.hits
  have hctxSize : field (fillHeader h ++ (put 4 textBytes ++ rest)) 16 4 = h.ctxSize := by
    simpa [fillHeader_append, field_cons, field_put, field_skip] using hfits.ctxSize
  have hcreatedAt : field (fillHeader h ++ (put 4 textBytes ++ rest)) 24 8 = h.createdAt := by
    simpa [fillHeader_append, field_cons, field_put, field_skip] using hfits.createdAt
  have hlastUsed : field (fillHeader h ++ (put 4 textBytes ++ rest)) 32 8 = h.lastUsed := by
    simpa [fillHeader_append, field_cons, field_put, field_skip] using hfits.lastUsed
  have hpayloadBytes :
      field (fillHeader h ++ (put 4 textBytes ++ rest)) 40 8 = h.payloadBytes := by
    simpa [fillHeader_append, field_cons, field_put, field_skip] using hfits.payloadBytes
  have hne : h.tokens ≠ 0 := Nat.pos_iff_ne_zero.mp hfits.tokens.1
  unfold readHeader
  rw [if_neg hlen, hbehind, habi, htokens, hhits, hctxSize, hcreatedAt, hlastUsed, hpayloadBytes]
  simp [fillHeader_append, hne, hfits.quantBits, hfits.reason]

/-- A file that passed the checks of a directory scan. -/
structure Entry where
  sha : Bytes
  name : Bytes
  header : Header
  textBytes : ℕ
  fileSize : ℕ
deriving DecidableEq

/-- `ds4_kvstore_sha_hex_name` -/
def shaHexName (name : Bytes) : Option Bytes :=
  if name.length = 43 ∧ name.drop 40 = str ".kv" ∧ (name.take 40).all isXDigit = true then
    some ((name.take 40).map toLower)
  else none

/-- `ds4_kvstore_path_for_sha`, relative to the directory. -/
def pathForSha (sha : Bytes) : Bytes := sha ++ str ".kv"

/-- Where the text and the payload of a file end. -/
def payloadEnd (textBytes payloadBytes : ℕ) : ℕ := fixedHeader + 4 + textBytes + payloadBytes

/-- `ds4_kvstore_read_entry_file` -/
def readEntryFile (name sha file : Bytes) : Option Entry :=
  match readHeader file with
  | none => none
  | some (h, textBytes) =>
      let expected := payloadEnd textBytes h.payloadBytes
      if 2 ^ 64 ≤ expected ∨ file.length < expected then none
      else some ⟨sha, name, h, textBytes, file.length⟩

theorem readEntryFile_spec {name sha file : Bytes} {e : Entry}
    (hread : readEntryFile name sha file = some e) :
    readHeader file = some (e.header, e.textBytes) ∧ e.fileSize = file.length ∧
      payloadEnd e.textBytes e.header.payloadBytes < 2 ^ 64 ∧
      payloadEnd e.textBytes e.header.payloadBytes ≤ file.length ∧ e.sha = sha ∧ e.name = name := by
  unfold readEntryFile at hread
  split at hread
  · contradiction
  rename_i hheader
  simp only at hread
  split at hread
  · contradiction
  rename_i hsize
  obtain rfl := Option.some.inj hread
  rw [not_or, not_le, not_lt] at hsize
  exact ⟨hheader, rfl, hsize.1, hsize.2, rfl, rfl⟩

/-- The entry a scan of the directory makes of a file. -/
def scanFile (f : Bytes × Bytes) : Option Entry :=
  match shaHexName f.1 with
  | none => none
  | some sha => readEntryFile f.1 sha f.2

/-! ### Directories -/

/-- The files of a directory, in the order in which it lists them. -/
structure Dir where
  files : List (Bytes × Bytes)
  nodup : (files.map Prod.fst).Nodup

/-- `fopen` for reading. -/
def Dir.read (d : Dir) (name : Bytes) : Option Bytes :=
  (d.files.find? fun f => f.1 = name).map Prod.snd

/-- `unlink` -/
def Dir.unlink (d : Dir) (name : Bytes) : Dir where
  files := d.files.filter fun f => f.1 ≠ name
  nodup := (filter_sublist.map Prod.fst).nodup d.nodup

/-- Writing a file in place. -/
def Dir.rewrite (d : Dir) (name : Bytes) (edit : Bytes → Bytes) : Dir where
  files := d.files.map fun f => if f.1 = name then (f.1, edit f.2) else f
  nodup := by
    have hnames : (d.files.map fun f => if f.1 = name then (f.1, edit f.2) else f).map Prod.fst =
        d.files.map Prod.fst := by
      rw [map_map]
      apply map_congr_left
      intro f _
      simp only [Function.comp]
      split <;> rfl
    rw [hnames]
    exact d.nodup

/-- `rename` of a temporary file to a name. -/
def Dir.put (d : Dir) (name file : Bytes) : Dir where
  files := (d.unlink name).files ++ [(name, file)]
  nodup := by
    rw [map_append, nodup_append]
    refine ⟨(d.unlink name).nodup, by simp, ?_⟩
    intro a ha b hb
    obtain ⟨f, hf, rfl⟩ := mem_map.mp ha
    have := (mem_filter.mp hf).2
    simpa [mem_singleton.mp hb] using this

/-- `kv_cache_refresh` -/
def Dir.refresh (d : Dir) : List Entry := d.files.filterMap scanFile

theorem scanFile_spec {f : Bytes × Bytes} {e : Entry} (h : scanFile f = some e) :
    e.name = f.1 ∧ e.fileSize = f.2.length ∧ shaHexName f.1 = some e.sha ∧
      readHeader f.2 = some (e.header, e.textBytes) ∧
      payloadEnd e.textBytes e.header.payloadBytes ≤ f.2.length := by
  unfold scanFile at h
  split at h
  · contradiction
  rename_i sha hsha
  obtain ⟨hheader, hsize, -, hend, rfl, hname⟩ := readEntryFile_spec h
  exact ⟨hname, hsize, hsha, hheader, hend⟩

theorem Dir.read_of_mem {d : Dir} {f : Bytes × Bytes} (h : f ∈ d.files) :
    d.read f.1 = some f.2 := by
  have hfind : d.files.find? (fun g => g.1 = f.1) = some f := by
    obtain ⟨files, hnodup⟩ := d
    induction files with
    | nil => simp at h
    | cons g rest ih =>
      rw [map_cons, nodup_cons] at hnodup
      by_cases hg : g = f
      · subst hg
        simp
      · have hrest : f ∈ rest := by
          rcases mem_cons.mp h with heq | hmem
          · exact absurd heq.symm hg
          · exact hmem
        have hname : g.1 ≠ f.1 := by
          intro heq
          apply hnodup.1
          rw [heq]
          exact mem_map_of_mem hrest
        rw [find?_cons_of_neg (by simpa using hname)]
        exact ih hnodup.2 hrest
  rw [Dir.read, hfind]
  rfl

theorem Dir.mem_of_read {d : Dir} {name file : Bytes} (h : d.read name = some file) :
    (name, file) ∈ d.files := by
  obtain ⟨f, hf, rfl⟩ := Option.map_eq_some_iff.mp h
  have hname := find?_some hf
  have hmem := mem_of_find?_eq_some hf
  rw [decide_eq_true_eq] at hname
  rw [← hname]
  exact hmem

theorem Dir.read_unlink {d : Dir} {name other : Bytes} (h : other ≠ name) :
    (d.unlink name).read other = d.read other := by
  unfold Dir.read Dir.unlink
  rw [find?_filter]
  congr 2
  funext f
  by_cases hf : f.1 = other
  · simp [hf, h]
  · simp [hf]

theorem Dir.mem_refresh {d : Dir} {e : Entry} (h : e ∈ d.refresh) :
    ∃ file, d.read e.name = some file ∧ scanFile (e.name, file) = some e := by
  obtain ⟨f, hf, hscan⟩ := mem_filterMap.mp h
  have hname := (scanFile_spec hscan).1
  refine ⟨f.2, ?_, ?_⟩
  · rw [hname]
    exact Dir.read_of_mem hf
  · rw [hname]
    exact hscan

theorem Dir.refresh_unlink (d : Dir) (name : Bytes) :
    (d.unlink name).refresh = d.refresh.filter fun e => e.name ≠ name := by
  unfold Dir.refresh Dir.unlink
  simp only
  induction d.files with
  | nil => rfl
  | cons f rest ih =>
    cases hscan : scanFile f with
    | none =>
      by_cases hf : f.1 = name
      · simpa [hf, hscan] using ih
      · simpa [hf, hscan] using ih
    | some e =>
      have hname := (scanFile_spec hscan).1
      by_cases hf : f.1 = name
      · simpa [hf, hscan, hname] using ih
      · simpa [hf, hscan, hname] using ih

theorem Dir.refresh_nodup (d : Dir) : (d.refresh.map Entry.name).Nodup := by
  have hsub : (d.refresh.map Entry.name).Sublist (d.files.map Prod.fst) := by
    unfold Dir.refresh
    induction d.files with
    | nil => exact List.Sublist.slnil
    | cons f rest ih =>
      cases hscan : scanFile f with
      | none =>
        rw [filterMap_cons_none hscan]
        exact ih.cons _
      | some e =>
        rw [filterMap_cons_some hscan, map_cons, (scanFile_spec hscan).1]
        exact ih.cons_cons _
  exact hsub.nodup d.nodup

end Ds4Studio.Kvstore
