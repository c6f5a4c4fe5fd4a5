import Ds4Studio.Dsml.Markup
import Ds4Studio.Lib.LittleEndian

/-!
The trailer of a cache file. It lists the ids of the tool calls whose exact
markup occurs in the text, each with that markup. The size is measured before
the file is written, by a loop that has to agree with the one that writes.
-/

namespace Ds4Studio.Kvstore

open Bytes List LittleEndian Option Search

/-- A block of markup the server remembers, with the ids of its calls. -/
structure ToolBlock where
  dsml : Bytes
  ids : List Bytes

abbrev ToolMemory := List ToolBlock

/-- The forms of `find_next_dsml_tool_block`. -/
def blockForms : List (Bytes × Bytes) :=
  [Dsml.dsml, Dsml.dsmlShort, Dsml.plain].flatMap fun x =>
    [(str "\n\n" ++ x.toolCallsStart, x.toolCallsEnd), (x.toolCallsStart, x.toolCallsEnd)]

/-- One form: an earlier start wins, and a start without an end does not count. -/
def considerForm (p : Bytes) (best : Option (ℕ × ℕ)) (form : Bytes × Bytes) : Option (ℕ × ℕ) :=
  match find form.1 p with
  | none => best
  | some i =>
      let earlier := match best with
        | some b => decide (b.1 ≤ i)
        | none => false
      if earlier then best
      else
        match find form.2 (p.drop i) with
        | none => best
        | some j => some (i, i + j + form.2.length)

/-- `find_next_dsml_tool_block`: the block and the text behind it. -/
def findNextDsmlToolBlock (p : Bytes) : Option (Bytes × Bytes) :=
  (blockForms.foldl (considerForm p) none).map fun b =>
    ((p.drop b.1).take (b.2 - b.1), p.drop b.2)

/-- The pairs of id and markup both loops come to. -/
def toolMapEntries (mem : ToolMemory) : ℕ → List Bytes → Bytes → List (Bytes × Bytes)
  | 0, _, _ => []
  | fuel + 1, seen, p =>
      match findNextDsmlToolBlock p with
      | none => []
      | some (block, rest) =>
          match mem.find? fun b => b.dsml = block with
          | none => toolMapEntries mem fuel seen rest
          | some b =>
              if b.dsml ∈ seen then toolMapEntries mem fuel seen rest
              else
                (b.ids.filter fun id => id.length < 2 ^ 32 ∧ b.dsml.length < 2 ^ 32).map
                    (fun id => (id, b.dsml)) ++
                  toolMapEntries mem fuel (b.dsml :: seen) rest

/-- The loop of `kv_tool_map_measure_locked` over the entries. -/
def measureLoop : ℕ → ℕ → List (Bytes × Bytes) → Option (ℕ × ℕ)
  | count, bytes, [] => some (count, bytes)
  | count, bytes, (id, dsml) :: rest =>
      if count = 2 ^ 32 - 1 then none
      else if 2 ^ 64 ≤ bytes + 8 + id.length + dsml.length then none
      else measureLoop (count + 1) (bytes + (8 + id.length + dsml.length)) rest

/-- `KV_TOOL_MAP_HEADER` -/
def toolMapHeader : ℕ := 8

/-- `kv_tool_map_measure_locked` -/
def kvToolMapMeasure (mem : ToolMemory) (text : Bytes) : Option (ℕ × ℕ) :=
  (measureLoop 0 toolMapHeader (toolMapEntries mem (text.length + 1) [] text)).map fun m =>
    if m.1 = 0 then (0, 0) else m

/-- `kv_tool_map_serialized_size` -/
def kvToolMapSerializedSize (disabled : Bool) (mem : ToolMemory) (text : Bytes) : Option ℕ :=
  if disabled || (cstr text).isEmpty then some 0
  else (kvToolMapMeasure mem (cstr text)).map Prod.snd

def toolMapEntry (e : Bytes × Bytes) : Bytes := put 4 e.1.length ++ put 4 e.2.length ++ e.1 ++ e.2

/-- `kv_tool_map_write`: the bytes it appends to the file. -/
def kvToolMapWrite (disabled : Bool) (mem : ToolMemory) (text : Bytes) : Option Bytes :=
  if disabled || (cstr text).isEmpty then some []
  else
    match kvToolMapMeasure mem (cstr text) with
    | none => none
    | some (count, _) =>
        if count = 0 then some []
        else
          some ([0x4b, 0x54, 0x4d, 1] ++ put 4 count ++
            (toolMapEntries mem ((cstr text).length + 1) [] (cstr text)).flatMap toolMapEntry)

theorem toolMapEntry_length (e : Bytes × Bytes) :
    (toolMapEntry e).length = 8 + e.1.length + e.2.length := by
  simp only [toolMapEntry, length_append, put_length]

theorem measureLoop_spec {entries : List (Bytes × Bytes)} {count bytes count' bytes' : ℕ}
    (h : measureLoop count bytes entries = some (count', bytes')) :
    count' = count + entries.length ∧
      bytes' = bytes + (entries.flatMap toolMapEntry).length ∧
      (count < 2 ^ 32 → count' < 2 ^ 32) := by
  induction entries generalizing count bytes with
  | nil =>
    obtain ⟨rfl, rfl⟩ := Prod.mk.inj (some.inj h)
    simp
  | cons e rest ih =>
    rw [measureLoop] at h
    split at h
    · contradiction
    split at h
    · contradiction
    obtain ⟨hcount, hbytes⟩ := ih h
    simp only [flatMap_cons, length_append, toolMapEntry_length, length_cons]
    omega

theorem kvToolMapWrite_length {disabled : Bool} {mem : ToolMemory} {text : Bytes} {size : ℕ}
    (h : kvToolMapSerializedSize disabled mem text = some size) :
    ∃ trailer, kvToolMapWrite disabled mem text = some trailer ∧ trailer.length = size := by
  unfold kvToolMapSerializedSize at h
  unfold kvToolMapWrite
  split at h
  · rename_i hoff
    rw [if_pos hoff]
    exact ⟨[], rfl, some.inj h⟩
  · rename_i hon
    rw [if_neg hon]
    obtain ⟨⟨count, bytes⟩, hmeasure, rfl⟩ := map_eq_some_iff.mp h
    rw [hmeasure]
    obtain ⟨⟨loopCount, loopBytes⟩, hloop, hpair⟩ := map_eq_some_iff.mp hmeasure
    obtain ⟨hcount, hbytes, -⟩ := measureLoop_spec hloop
    by_cases hnone : loopCount = 0
    · rw [if_pos hnone] at hpair
      obtain ⟨rfl, rfl⟩ := Prod.mk.inj hpair
      exact ⟨[], by simp, rfl⟩
    · rw [if_neg hnone] at hpair
      obtain ⟨rfl, rfl⟩ := Prod.mk.inj hpair
      simp only [if_neg hnone]
      refine ⟨_, rfl, ?_⟩
      rw [length_append, hbytes]
      rfl

/-- The bounds the loader checks. -/
def fits (idLen dsmlLen : ℕ) : Bool :=
  0 < idLen ∧ idLen ≤ 256 ∧ 0 < dsmlLen ∧ dsmlLen ≤ 512 * 1024 * 1024

/-- The loop of `kv_tool_map_load_from_pos`: the pairs it puts. -/
def loadLoop (wanted : Option (List Bytes)) : ℕ → Bytes → List (Bytes × Bytes)
  | 0, _ => []
  | count + 1, s =>
      let idLen := LittleEndian.get (s.take 4)
      let dsmlLen := LittleEndian.get ((s.drop 4).take 4)
      let id := (s.drop 8).take idLen
      let behind := (s.drop 8).drop idLen
      let dsml := behind.take dsmlLen
      if 8 ≤ s.length ∧ fits idLen dsmlLen ∧ idLen ≤ id.length ∧ dsmlLen ≤ dsml.length then
        [(cstr id, cstr dsml)].filter (fun e => wanted.all (e.1 ≠ [] ∧ e.1 ∈ ·)) ++
          loadLoop wanted count (behind.drop dsmlLen)
      else []

/-- `kv_tool_map_load_from_pos` -/
def kvToolMapLoadFromPos (disabled : Bool) (maxEntries : ℕ) (wanted : Option (List Bytes))
    (s : Bytes) : List (Bytes × Bytes) :=
  let count := LittleEndian.get ((s.drop 4).take 4)
  if disabled ∨ s.take 4 ≠ [0x4b, 0x54, 0x4d, 1] ∨ s.length < 8 ∨ maxEntries * 4 < count then []
  else loadLoop wanted count (s.drop 8)

variable {mem : ToolMemory} {wanted : Option (List Bytes)} {entries : List (Bytes × Bytes)}

theorem mem_toolMapEntries {fuel : ℕ} {seen : List Bytes} {p : Bytes} {e : Bytes × Bytes}
    (h : e ∈ toolMapEntries mem fuel seen p) :
    e.1.length < 2 ^ 32 ∧ e.2.length < 2 ^ 32 ∧ ∃ b ∈ mem, e.1 ∈ b.ids ∧ e.2 = b.dsml := by
  fun_induction toolMapEntries mem fuel seen p with
  | case1 => simp at h
  | case2 => simp at h
  | case3 _ _ _ _ _ _ _ ih => exact ih h
  | case4 _ _ _ _ _ _ _ _ _ ih => exact ih h
  | case5 _ _ _ _ _ _ b hb _ ih =>
    rcases mem_append.mp h with hown | hlater
    · obtain ⟨id, hid, rfl⟩ := mem_map.mp hown
      have hlen := of_decide_eq_true (mem_filter.mp hid).2
      exact ⟨hlen.1, hlen.2, b, mem_of_find?_eq_some hb, (mem_filter.mp hid).1, rfl⟩
    · exact ih hlater

theorem loadLoop_entries (h : ∀ e ∈ entries, e.1.length < 2 ^ 32 ∧ e.2.length < 2 ^ 32 ∧
      (0 : UInt8) ∉ e.1 ∧ (0 : UInt8) ∉ e.2) :
    loadLoop wanted entries.length (entries.flatMap toolMapEntry) =
      (entries.takeWhile fun e => fits e.1.length e.2.length).filter
        fun e => wanted.all (e.1 ≠ [] ∧ e.1 ∈ ·) := by
  induction entries with
  | nil => rfl
  | cons e rest ih =>
    obtain ⟨hid, hdsml, hid0, hdsml0⟩ := h e mem_cons_self
    have hget : LittleEndian.get (put 4 e.1.length) = e.1.length := get_put_of_lt (by omega)
    have hget' : LittleEndian.get (put 4 e.2.length) = e.2.length := get_put_of_lt (by omega)
    have hrest := ih fun e' he => h e' (mem_cons_of_mem e he)
    rw [length_cons, flatMap_cons]
    generalize rest.flatMap toolMapEntry = t at hrest
    have hlen : 8 ≤ 4 + (4 + (e.1.length + (e.2.length + t.length))) := by omega
    by_cases hfits : fits e.1.length e.2.length
    · simp [loadLoop, toolMapEntry, drop_append, drop_eq_nil_of_le, hget, hget', hlen, hfits,
        cstr_eq_self hid0, cstr_eq_self hdsml0, hrest, filter_cons]
      split <;> rfl
    · simp [loadLoop, toolMapEntry, drop_append, hget, hget', hfits]

/-- The entries of the text, as they are written and loaded. -/
def written (mem : ToolMemory) (text : Bytes) : List (Bytes × Bytes) :=
  toolMapEntries mem ((cstr text).length + 1) [] (cstr text)

variable {text trailer : Bytes}

theorem kvToolMapWrite_cases (h : kvToolMapWrite false mem text = some trailer) :
    written mem text = [] ∧ trailer = [] ∨ (written mem text).length < 2 ^ 32 ∧
      trailer = [0x4b, 0x54, 0x4d, 1] ++ put 4 (written mem text).length ++
        (written mem text).flatMap toolMapEntry := by
  unfold kvToolMapWrite at h
  split at h
  · rename_i hempty
    have htext : cstr text = [] := by simpa using hempty
    have hfind : findNextDsmlToolBlock [] = none := by decide
    exact Or.inl ⟨by simp [written, htext, toolMapEntries, hfind], (some.inj h).symm⟩
  split at h
  · contradiction
  rename_i hmeasure
  obtain ⟨⟨loopCount, loopBytes⟩, hloop, hm⟩ := map_eq_some_iff.mp hmeasure
  obtain ⟨hcount, -, hlt⟩ := measureLoop_spec hloop
  rw [Nat.zero_add] at hcount
  by_cases hzero : loopCount = 0
  · rw [if_pos hzero] at hm
    cases hm
    exact Or.inl ⟨length_eq_zero_iff.mp (hcount.symm.trans hzero), (some.inj h).symm⟩
  · rw [if_neg hzero] at hm
    cases hm
    rw [if_neg hzero, hcount] at h
    exact Or.inr ⟨hcount ▸ hlt (by omega), (some.inj h).symm⟩

/-- What was written is loaded up to the first entry out of the bounds, and
nothing of it where there are too many. -/
theorem kvToolMapLoadFromPos_write (mem : ToolMemory) (text : Bytes) (maxEntries : ℕ)
    (wanted : Option (List Bytes))
    (hzero : ∀ b ∈ mem, (0 : UInt8) ∉ b.dsml ∧ ∀ id ∈ b.ids, (0 : UInt8) ∉ id)
    (h : kvToolMapWrite false mem text = some trailer) :
    kvToolMapLoadFromPos false maxEntries wanted trailer =
      if maxEntries * 4 < (written mem text).length then []
      else ((written mem text).takeWhile fun e => fits e.1.length e.2.length).filter
        fun e => wanted.all (e.1 ≠ [] ∧ e.1 ∈ ·) := by
  have hload := @loadLoop_entries wanted (written mem text) fun e he => by
    obtain ⟨hid, hdsml, b, hb, hmem, heq⟩ := mem_toolMapEntries he
    exact ⟨hid, hdsml, (hzero b hb).2 _ hmem, heq ▸ (hzero b hb).1⟩
  rcases kvToolMapWrite_cases h with ⟨hnone, rfl⟩ | ⟨hlt, rfl⟩
  · simp [hnone, kvToolMapLoadFromPos]
  · have hget : LittleEndian.get (put 4 (written mem text).length) = _ := get_put_of_lt hlt
    rw [← hload]
    simp +arith [kvToolMapLoadFromPos, hget]

def idleBlock : ToolBlock := ⟨str "<tool_calls></tool_calls>", [str "a", str "b"]⟩

theorem kvToolMapLoadFromPos_write_one :
    kvToolMapLoadFromPos false 4 (some [str "a"])
      ((kvToolMapWrite false [idleBlock] idleBlock.dsml).getD []) =
      [(str "a", idleBlock.dsml)] :=
  kvToolMapLoadFromPos_write [idleBlock] idleBlock.dsml 4 _ (by decide) rfl

end Ds4Studio.Kvstore
