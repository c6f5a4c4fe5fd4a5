import Ds4Studio.Stream.Anthropic
import Ds4Studio.Stream.Openai

/-!
Stop strings while text is generated. After each piece the text is searched for stop
strings from shortly in front of its old end on. Streams are given the text up to the
first stop, or, as long as there is none, up to where one may still begin. A stop ends
the generation and cuts the text.

The structured streams look for their tags in the whole buffer, so they may pass what
they are given when a tag starts behind it.
-/

namespace Ds4Studio.Stream

open Bytes List Option Search

/-! ### Stop lists -/

/-- The stop strings of a request; strings without a byte are dropped. -/
structure StopList where
  v : List Bytes
  wellFormed : ∀ s ∈ v, s ≠ [] ∧ (0 : UInt8) ∉ s

def StopList.empty : StopList := ⟨[], nofun⟩

def stopListPush (stops : StopList) (s : Bytes) : StopList :=
  if h : cstr s = [] then stops
  else
    { v := stops.v ++ [cstr s]
      wellFormed := by
        intro t ht
        rcases mem_append.mp ht with hold | hnew
        · exact stops.wellFormed t hold
        · rw [mem_singleton.mp hnew]
          exact ⟨h, zero_not_mem_cstr s⟩ }

def StopList.maxLen (stops : StopList) : ℕ := (stops.v.map length).foldl max 0

/-- The stop string that starts first in the text behind a position. -/
def stopListFindFrom (stops : StopList) (text : Bytes) (start : ℕ) : Option ℕ :=
  earliest (stops.v.map (strstrFrom text start))

def stopListStreamSafeLen (stops : StopList) (textLen : ℕ) : ℕ :=
  if stops.v = [] ∨ stops.maxLen ≤ 1 then textLen else textLen - (stops.maxLen - 1)

/-! ### Decoding -/

/-- A token that is decoded: its text, and what the recovery of a tool call inside
unclosed thinking appends behind it (for a structured stream only). -/
structure Step where
  piece : Bytes
  injected : Bytes

/-- The part of the decoding loop that streams. -/
structure Decoding where
  text : Bytes
  /-- The text with what a stop cuts off. -/
  generated : Bytes
  /-- How much of the text has been searched for stops. -/
  scanned : ℕ
  stopScanFrom : ℕ
  plainStreamPos : ℕ
  /-- The deltas of a plain stream. -/
  deltas : List Bytes
  /-- The updates of a structured stream. -/
  updates : List (Bytes × ℕ)
  hitStop : Option ℕ

def decodingStart : Decoding where
  text := []
  generated := []
  scanned := 0
  stopScanFrom := 0
  plainStreamPos := 0
  deltas := []
  updates := []
  hitStop := none

/-- How much of the text the streams may read. -/
def streamLen (stops : StopList) (hit : Option ℕ) (text : Bytes) (plainStreamPos : ℕ) : ℕ :=
  utf8StreamSafeLen text plainStreamPos
    (min (hit.getD (stopListStreamSafeLen stops text.length)) text.length) hit.isSome

def decodeStep (structured : Bool) (stops : StopList) (d : Decoding) (step : Step) : Decoding :=
  let text := d.text ++ step.piece
  let hit := stopListFindFrom stops text d.stopScanFrom
  let len := streamLen stops hit text d.plainStreamPos
  let sends := !structured && d.plainStreamPos < len
  let whole := text ++ if structured then step.injected else []
  { text := match hit with
      | some stop => text.take stop
      | none => whole
    generated := if hit.isSome then text else whole
    scanned := text.length
    stopScanFrom := if hit = none ∧ 1 < stops.maxLen then text.length - (stops.maxLen - 1)
      else d.stopScanFrom
    plainStreamPos := if sends then len else d.plainStreamPos
    deltas := if sends then d.deltas ++ [wireText (slice text d.plainStreamPos len)] else d.deltas
    updates := if structured then d.updates ++ [(text, len)] else d.updates
    hitStop := hit }

/-- Decoding ends with the first stop. -/
def decodeLoop (structured : Bool) (stops : StopList) : Decoding → List Step → Decoding
  | d, [] => d
  | d, step :: steps =>
      let d := decodeStep structured stops d step
      if d.hitStop.isSome then d else decodeLoop structured stops d steps

/-- The deltas of a plain stream with the tail that is sent at its end. -/
def plainDeltas (d : Decoding) : List Bytes :=
  if d.plainStreamPos < d.text.length then
    d.deltas ++ [wireText (slice d.text d.plainStreamPos d.text.length)]
  else d.deltas

/-! ### Searching -/

/-- A stop string starts at the position. -/
def StopAt (stops : StopList) (text : Bytes) (q : ℕ) : Prop := ∃ s ∈ stops.v, s <+: text.drop q

variable {text : Bytes}

theorem strstrFrom_eq_some_iff (h : (0 : UInt8) ∉ text) {pat : Bytes} (hpat : pat ≠ [])
    (start q : ℕ) :
    strstrFrom text start pat = some q ↔
      start ≤ q ∧ pat <+: text.drop q ∧ ∀ j, start ≤ j → pat <+: text.drop j → q ≤ j := by
  have hcstr : cstr (text.drop start) = text.drop start :=
    cstr_eq_self fun hmem => h (mem_of_mem_drop hmem)
  have hshort : ∀ j, pat <+: text.drop j → j < text.length := by
    intro j hj
    by_contra hle
    rw [drop_of_length_le (Nat.le_of_not_lt hle), prefix_nil] at hj
    exact hpat hj
  unfold strstrFrom
  rw [hcstr, map_eq_some_iff]
  constructor
  · rintro ⟨i, hi, rfl⟩
    obtain ⟨-, hat, hfirst⟩ := (find_eq_some_iff _ _ _).mp hi
    rw [drop_drop] at hat
    refine ⟨by omega, by rwa [Nat.add_comm], ?_⟩
    intro j hj hpre
    by_contra hlt
    refine hfirst (j - start) (by omega) ?_
    rwa [drop_drop, Nat.add_sub_cancel' hj]
  · rintro ⟨hle, hat, hfirst⟩
    have hlen := hshort q hat
    refine ⟨q - start, (find_eq_some_iff _ _ _).mpr ⟨?_, ?_, ?_⟩, by omega⟩
    · rw [length_drop]
      omega
    · rwa [drop_drop, Nat.add_sub_cancel' hle]
    · intro j hj hpre
      rw [drop_drop] at hpre
      have := hfirst (start + j) (by omega) hpre
      omega

theorem strstrFrom_eq_none_iff (h : (0 : UInt8) ∉ text) {pat : Bytes} (start : ℕ) :
    strstrFrom text start pat = none ↔ ∀ j, start ≤ j → ¬ pat <+: text.drop j := by
  have hcstr : cstr (text.drop start) = text.drop start :=
    cstr_eq_self fun hmem => h (mem_of_mem_drop hmem)
  unfold strstrFrom
  rw [hcstr, map_eq_none_iff, find_eq_none_iff]
  constructor
  · intro hnot j hj hpre
    have hdrop : text.drop j = (text.drop start).drop (j - start) := by
      rw [drop_drop, Nat.add_sub_cancel' hj]
    rw [hdrop] at hpre
    exact hnot (infix_of_prefix_drop hpre)
  · intro hall hin
    obtain ⟨i, hi⟩ := find_isSome_of_infix hin
    obtain ⟨-, hat, -⟩ := (find_eq_some_iff _ _ _).mp hi
    rw [drop_drop] at hat
    exact hall _ (Nat.le_add_right start i) hat

theorem stopListFindFrom_eq_some_iff (stops : StopList) (h : (0 : UInt8) ∉ text) (start p : ℕ) :
    stopListFindFrom stops text start = some p ↔
      start ≤ p ∧ StopAt stops text p ∧ ∀ j, start ≤ j → StopAt stops text j → p ≤ j := by
  unfold stopListFindFrom
  rw [earliest_eq_some_iff]
  constructor
  · rintro ⟨hmem, hleast⟩
    obtain ⟨s, hs, hsome⟩ := mem_map.mp hmem
    obtain ⟨hle, hat, -⟩ := (strstrFrom_eq_some_iff h (stops.wellFormed s hs).1 start p).mp hsome
    refine ⟨hle, ⟨s, hs, hat⟩, ?_⟩
    rintro j hj ⟨t, ht, hat'⟩
    cases hfind : strstrFrom text start t with
    | none => exact absurd hat' ((strstrFrom_eq_none_iff h start).mp hfind j hj)
    | some q =>
      have hq := ((strstrFrom_eq_some_iff h (stops.wellFormed t ht).1 start q).mp hfind).2.2 j hj hat'
      have := hleast q (mem_map.mpr ⟨t, ht, hfind⟩)
      omega
  · rintro ⟨hle, ⟨s, hs, hat⟩, hleast⟩
    refine ⟨mem_map.mpr ⟨s, hs, ?_⟩, ?_⟩
    · refine (strstrFrom_eq_some_iff h (stops.wellFormed s hs).1 start p).mpr ⟨hle, hat, ?_⟩
      exact fun j hj hpre => hleast j hj ⟨s, hs, hpre⟩
    · intro j hj
      obtain ⟨t, ht, hsome⟩ := mem_map.mp hj
      obtain ⟨hle', hat', -⟩ := (strstrFrom_eq_some_iff h (stops.wellFormed t ht).1 start j).mp hsome
      exact hleast j hle' ⟨t, ht, hat'⟩

theorem stopListFindFrom_eq_none_iff (stops : StopList) (h : (0 : UInt8) ∉ text) (start : ℕ) :
    stopListFindFrom stops text start = none ↔ ∀ j, start ≤ j → ¬ StopAt stops text j := by
  unfold stopListFindFrom
  rw [earliest_eq_none_iff]
  constructor
  · rintro hall j hj ⟨s, hs, hat⟩
    exact (strstrFrom_eq_none_iff h start).mp (hall _ (mem_map.mpr ⟨s, hs, rfl⟩)) j hj hat
  · intro hall p hp
    obtain ⟨s, hs, rfl⟩ := mem_map.mp hp
    exact (strstrFrom_eq_none_iff h start).mpr fun j hj hat => hall j hj ⟨s, hs, hat⟩

variable {stops : StopList}

/-- Where no stop starts in front of a position, the search may start there. -/
theorem stopListFindFrom_eq (h : (0 : UInt8) ∉ text) {start : ℕ}
    (hfront : ∀ j, StopAt stops text j → start ≤ j) :
    stopListFindFrom stops text start = stopListFindFrom stops text 0 := by
  cases hfind : stopListFindFrom stops text start with
  | none =>
    have hnone := (stopListFindFrom_eq_none_iff stops h start).mp hfind
    symm
    rw [stopListFindFrom_eq_none_iff stops h]
    exact fun j _ hat => hnone j (hfront j hat) hat
  | some p =>
    obtain ⟨hle, hat, hleast⟩ := (stopListFindFrom_eq_some_iff stops h start p).mp hfind
    symm
    rw [stopListFindFrom_eq_some_iff stops h]
    exact ⟨Nat.zero_le p, hat, fun j _ hat' => hleast j (hfront j hat') hat'⟩

theorem length_le_maxLen {s : Bytes} (h : s ∈ stops.v) : s.length ≤ stops.maxLen := by
  have hfold : ∀ (l : List ℕ) (init n : ℕ), n ∈ l ∨ n ≤ init → n ≤ l.foldl max init := by
    intro l
    induction l with
    | nil =>
      intro init n hn
      simpa using hn
    | cons a l ih =>
      intro init n hn
      apply ih
      rcases hn with hmem | hle
      · rcases mem_cons.mp hmem with rfl | hmem
        · exact Or.inr (Nat.le_max_right _ _)
        · exact Or.inl hmem
      · exact Or.inr (Nat.le_trans hle (Nat.le_max_left _ _))
  exact hfold _ _ _ (Or.inl (mem_map.mpr ⟨s, h, rfl⟩))

theorem continuationBack_le (raw : Bytes) (start n p : ℕ) : continuationBack raw start n p ≤ p := by
  induction n generalizing p with
  | zero => exact Nat.le_refl p
  | succ n ih =>
    unfold continuationBack
    split
    · have := ih (p - 1)
      omega
    · exact Nat.le_refl p

theorem utf8StreamSafeLen_le (raw : Bytes) (start limit : ℕ) (final : Bool) :
    utf8StreamSafeLen raw start limit final ≤ limit := by
  have hback := continuationBack_le raw start 4 limit
  simp only [utf8StreamSafeLen]
  split_ifs <;> omega

/-! ### What the loop keeps -/

/-- How far a stop that has not been found cannot begin. -/
def Decoding.bound (stops : StopList) (d : Decoding) : ℕ := d.scanned - (stops.maxLen - 1)

/-- An update reads the generated text in front of a limit. -/
structure Reads (generated : Bytes) (limit : ℕ) (u : Bytes × ℕ) : Prop where
  front : u.1 <+: generated
  inside : u.2 ≤ u.1.length
  len : u.2 ≤ limit

theorem Reads.mono {generated longer : Bytes} {limit limit' : ℕ} {u : Bytes × ℕ}
    (h : Reads generated limit u) (hgenerated : generated <+: longer) (hlimit : limit ≤ limit') :
    Reads longer limit' u :=
  ⟨h.front.trans hgenerated, h.inside, Nat.le_trans h.len hlimit⟩

/-- What holds while no stop has been found. -/
structure Scanning (stops : StopList) (d : Decoding) : Prop where
  scanned_le : d.scanned ≤ d.text.length
  terminated : (0 : UInt8) ∉ d.text
  generated : d.generated = d.text
  noStop : ∀ s ∈ stops.v, ∀ q, s <+: d.text.drop q → d.scanned < q + s.length
  scanFrom : d.stopScanFrom ≤ d.bound stops
  plainPos : d.plainStreamPos ≤ d.bound stops
  deltas : d.deltas.flatten = d.text.take d.plainStreamPos
  updates : ∀ u ∈ d.updates, Reads d.generated (d.bound stops) u
  noHit : d.hitStop = none

theorem scanning_start (stops : StopList) : Scanning stops decodingStart where
  scanned_le := Nat.le_refl 0
  terminated := by simp [decodingStart]
  generated := rfl
  noStop := by
    intro s hs q hpre
    have hlen := length_pos_of_ne_nil (stops.wellFormed s hs).1
    simp only [decodingStart]
    omega
  scanFrom := Nat.zero_le _
  plainPos := Nat.zero_le _
  deltas := rfl
  updates := nofun
  noHit := rfl

/-- What holds once a stop has been found: the text is what was generated, cut at it. -/
structure Stopped (stops : StopList) (d : Decoding) (stop : ℕ) : Prop where
  earliest : stopListFindFrom stops d.generated 0 = some stop
  text : d.text = d.generated.take stop
  inside : stop ≤ d.generated.length
  deltas : d.deltas.flatten = d.text.take d.plainStreamPos
  plainPos : d.plainStreamPos ≤ stop
  terminated : (0 : UInt8) ∉ d.generated
  updates : ∀ u ∈ d.updates, Reads d.generated stop u

variable {d : Decoding}

theorem Scanning.bound_le (h : Scanning stops d) {piece : Bytes} {q : ℕ}
    (hat : StopAt stops (d.text ++ piece) q) : d.bound stops ≤ q := by
  obtain ⟨s, hs, hpre⟩ := hat
  have hmax := length_le_maxLen hs
  have hbehind : d.scanned < q + s.length := by
    by_cases hin : q + s.length ≤ d.text.length
    · apply h.noStop s hs q
      rw [drop_append_of_le_length (by omega)] at hpre
      refine prefix_of_prefix_length_le hpre (prefix_append _ _) ?_
      rw [length_drop]
      omega
    · have := h.scanned_le
      omega
  unfold Decoding.bound
  omega

/-- The search from shortly in front of the old end finds the earliest stop. -/
theorem Scanning.search (h : Scanning stops d) {piece : Bytes} (hpiece : (0 : UInt8) ∉ piece) :
    stopListFindFrom stops (d.text ++ piece) d.stopScanFrom =
      stopListFindFrom stops (d.text ++ piece) 0 := by
  apply stopListFindFrom_eq
  · simp [h.terminated, hpiece]
  · intro j hat
    exact Nat.le_trans h.scanFrom (h.bound_le hat)

theorem wireText_slice (h : (0 : UInt8) ∉ text) (start limit : ℕ) :
    wireText (slice text start limit) = slice text start limit :=
  cstr_eq_self fun hmem => h (mem_of_mem_drop (mem_of_mem_take hmem))

theorem take_append_slice (text : Bytes) {start limit : ℕ} (h : start ≤ limit) :
    text.take start ++ slice text start limit = text.take limit := by
  have hsplit := take_add (l := text) (i := start) (j := limit - start)
  rw [Nat.add_sub_cancel' h] at hsplit
  exact hsplit.symm

variable {step : Step}

/-- The deltas of a plain stream are the text up to its position, before and after a
step. -/
theorem decodeStep_deltas (structured : Bool) (h : Scanning stops d)
    (hpiece : (0 : UInt8) ∉ step.piece) :
    (decodeStep structured stops d step).deltas.flatten =
      (d.text ++ step.piece).take (decodeStep structured stops d step).plainStreamPos := by
  have hpos : d.plainStreamPos ≤ d.text.length := by
    have := h.plainPos
    have := h.scanned_le
    unfold Decoding.bound at *
    omega
  have hold : d.deltas.flatten = (d.text ++ step.piece).take d.plainStreamPos := by
    rw [h.deltas, take_append_of_le_length hpos]
  have hterminated : (0 : UInt8) ∉ d.text ++ step.piece := by simp [h.terminated, hpiece]
  simp only [decodeStep]
  split_ifs with hsends
  · have hlt : d.plainStreamPos <
        streamLen stops (stopListFindFrom stops (d.text ++ step.piece) d.stopScanFrom)
          (d.text ++ step.piece) d.plainStreamPos := by
      simp only [Bool.and_eq_true, decide_eq_true_eq] at hsends
      exact hsends.2
    rw [flatten_append, hold, wireText_slice hterminated]
    simp only [flatten_cons, flatten_nil, append_nil]
    exact take_append_slice _ (Nat.le_of_lt hlt)
  · exact hold

theorem streamLen_le_length (stops : StopList) (hit : Option ℕ) (text : Bytes) (pos : ℕ) :
    streamLen stops hit text pos ≤ text.length :=
  Nat.le_trans (utf8StreamSafeLen_le _ _ _ _) (Nat.min_le_right _ _)

theorem streamLen_le (stops : StopList) (hit : Option ℕ) (text : Bytes) (pos : ℕ) :
    streamLen stops hit text pos ≤ hit.getD (stopListStreamSafeLen stops text.length) :=
  Nat.le_trans (utf8StreamSafeLen_le _ _ _ _) (Nat.min_le_left _ _)

theorem safeLen_le {n : ℕ} : stopListStreamSafeLen stops n ≤ n - (stops.maxLen - 1) := by
  unfold stopListStreamSafeLen
  split
  · rename_i hcases
    rcases hcases with hnil | hone
    · have : stops.maxLen = 0 := by simp [StopList.maxLen, hnil]
      omega
    · omega
  · exact Nat.le_refl _

variable {structured : Bool}

theorem decodeStep_plainPos_le {hit : Option ℕ} {n : ℕ}
    (hfind : stopListFindFrom stops (d.text ++ step.piece) d.stopScanFrom = hit)
    (hold : d.plainStreamPos ≤ n)
    (hlen : streamLen stops hit (d.text ++ step.piece) d.plainStreamPos ≤ n) :
    (decodeStep structured stops d step).plainStreamPos ≤ n := by
  simp only [decodeStep, hfind]
  split
  · exact hlen
  · exact hold

theorem decodeStep_updates {hit : Option ℕ} {P : Bytes × ℕ → Prop}
    (hfind : stopListFindFrom stops (d.text ++ step.piece) d.stopScanFrom = hit)
    (hold : ∀ u ∈ d.updates, P u) (hnew : P (d.text ++ step.piece,
      streamLen stops hit (d.text ++ step.piece) d.plainStreamPos)) :
    ∀ u ∈ (decodeStep structured stops d step).updates, P u := by
  simp only [decodeStep, hfind]
  split
  · simpa only [forall_mem_append, forall_mem_singleton] using ⟨hold, hnew⟩
  · exact hold

theorem Scanning.step_none (h : Scanning stops d) (hpiece : (0 : UInt8) ∉ step.piece)
    (hinjected : (0 : UInt8) ∉ step.injected)
    (hhit : (decodeStep structured stops d step).hitStop = none) :
    Scanning stops (decodeStep structured stops d step) := by
  have hfind : stopListFindFrom stops (d.text ++ step.piece) d.stopScanFrom = none := hhit
  have hdeltas := decodeStep_deltas structured h hpiece
  have hterminated : (0 : UInt8) ∉ d.text ++ step.piece := by simp [h.terminated, hpiece]
  have htext : (decodeStep structured stops d step).text =
      d.text ++ step.piece ++ if structured then step.injected else [] := by
    simp only [decodeStep, hfind]
  have hbound : (decodeStep structured stops d step).bound stops =
      (d.text ++ step.piece).length - (stops.maxLen - 1) := rfl
  have hmono : d.bound stops ≤ (decodeStep structured stops d step).bound stops := by
    have := h.scanned_le
    rw [hbound, length_append, Decoding.bound]
    omega
  have hlen : streamLen stops none (d.text ++ step.piece) d.plainStreamPos ≤
      (decodeStep structured stops d step).bound stops :=
    Nat.le_trans (streamLen_le _ _ _ _) safeLen_le
  have hplain : (decodeStep structured stops d step).plainStreamPos ≤
      (decodeStep structured stops d step).bound stops :=
    decodeStep_plainPos_le hfind (h.plainPos.trans hmono) hlen
  have hgenerated : (decodeStep structured stops d step).generated =
      d.text ++ step.piece ++ if structured then step.injected else [] := by
    simp [decodeStep, hfind]
  have hfront : d.text ++ step.piece <+: (decodeStep structured stops d step).generated := by
    rw [hgenerated]
    exact prefix_append _ _
  have hgrows : d.generated <+: (decodeStep structured stops d step).generated := by
    rw [h.generated]
    exact (prefix_append _ _).trans hfront
  refine ⟨?_, ?_, ?_, ?_, ?_, hplain, ?_, ?_, hhit⟩
  · rw [htext]
    simp [decodeStep]
  · rw [htext]
    split <;> simp [h.terminated, hpiece, hinjected]
  · rw [hgenerated, htext]
  · intro s hs q hpre
    have hscanned : (decodeStep structured stops d step).scanned = (d.text ++ step.piece).length := rfl
    by_contra hle
    rw [htext, drop_append_of_le_length (by omega)] at hpre
    have hin : s <+: (d.text ++ step.piece).drop q := by
      refine prefix_of_prefix_length_le hpre (prefix_append _ _) ?_
      rw [length_drop]
      omega
    rw [h.search hpiece] at hfind
    exact (stopListFindFrom_eq_none_iff stops hterminated 0).mp hfind q (Nat.zero_le q) ⟨s, hs, hin⟩
  · have hfrom : (decodeStep structured stops d step).stopScanFrom =
        if 1 < stops.maxLen then (d.text ++ step.piece).length - (stops.maxLen - 1)
        else d.stopScanFrom := by
      simp only [decodeStep, hfind, true_and]
    have := h.scanFrom
    rw [hfrom]
    split
    · exact Nat.le_of_eq hbound.symm
    · omega
  · have hle : (decodeStep structured stops d step).plainStreamPos ≤ (d.text ++ step.piece).length := by
      omega
    rw [hdeltas, htext, take_append_of_le_length hle]
  · exact decodeStep_updates hfind (fun u hu => (h.updates u hu).mono hgrows hmono)
      ⟨hfront, streamLen_le_length _ _ _ _, hlen⟩

/-- A step that finds a stop finds the earliest one and cuts the text there. -/
theorem Scanning.step_some (h : Scanning stops d) (hpiece : (0 : UInt8) ∉ step.piece) {stop : ℕ}
    (hhit : (decodeStep structured stops d step).hitStop = some stop) :
    Stopped stops (decodeStep structured stops d step) stop := by
  have hfind : stopListFindFrom stops (d.text ++ step.piece) d.stopScanFrom = some stop := hhit
  have hdeltas := decodeStep_deltas structured h hpiece
  have hterminated : (0 : UInt8) ∉ d.text ++ step.piece := by simp [h.terminated, hpiece]
  have hearliest := h.search hpiece
  rw [hfind] at hearliest
  obtain ⟨-, ⟨s, hs, hpre⟩, -⟩ :=
    (stopListFindFrom_eq_some_iff stops hterminated 0 stop).mp hearliest.symm
  have hbound := h.bound_le ⟨s, hs, hpre⟩
  have hinside : stop ≤ (d.text ++ step.piece).length := by
    have hpos := length_pos_of_ne_nil (stops.wellFormed s hs).1
    have := hpre.length_le
    rw [length_drop] at this
    omega
  have htext : (decodeStep structured stops d step).text = (d.text ++ step.piece).take stop := by
    simp only [decodeStep, hfind]
  have hgenerated : (decodeStep structured stops d step).generated = d.text ++ step.piece := by
    simp [decodeStep, hfind]
  have hlen : streamLen stops (some stop) (d.text ++ step.piece) d.plainStreamPos ≤ stop :=
    streamLen_le _ _ _ _
  have hplain : (decodeStep structured stops d step).plainStreamPos ≤ stop :=
    decodeStep_plainPos_le hfind (h.plainPos.trans hbound) hlen
  have hgrows : d.generated <+: (decodeStep structured stops d step).generated := by
    rw [h.generated, hgenerated]
    exact prefix_append _ _
  refine ⟨?_, ?_, ?_, ?_, hplain, ?_, ?_⟩
  · rw [hgenerated]
    exact hearliest.symm
  · rw [hgenerated, htext]
  · rwa [hgenerated]
  · rw [hdeltas, htext, take_take, Nat.min_eq_left hplain]
  · rwa [hgenerated]
  · have hfront : d.text ++ step.piece <+: (decodeStep structured stops d step).generated := by
      rw [hgenerated]
    exact decodeStep_updates hfind (fun u hu => (h.updates u hu).mono hgrows hbound)
      ⟨hfront, streamLen_le_length stops (some stop) _ d.plainStreamPos, hlen⟩

theorem Scanning.loop (h : Scanning stops d) (structured : Bool) (steps : List Step)
    (hzero : ∀ s ∈ steps, (0 : UInt8) ∉ s.piece ∧ (0 : UInt8) ∉ s.injected) :
    Scanning stops (decodeLoop structured stops d steps) ∨
      ∃ stop, Stopped stops (decodeLoop structured stops d steps) stop := by
  induction steps generalizing d with
  | nil => exact Or.inl h
  | cons step steps ih =>
    obtain ⟨hpiece, hinjected⟩ := hzero step mem_cons_self
    simp only [decodeLoop]
    cases hhit : (decodeStep structured stops d step).hitStop with
    | none =>
      have hnext := h.step_none hpiece hinjected hhit
      simpa using ih hnext fun s hs => hzero s (mem_cons_of_mem step hs)
    | some stop =>
      right
      simpa using ⟨stop, h.step_some hpiece hhit⟩

/-! ### Plain streams -/

/-- The generated text cut at its earliest stop. -/
def cutAtStop (stops : StopList) (generated : Bytes) : Bytes :=
  match stopListFindFrom stops generated 0 with
  | some stop => generated.take stop
  | none => generated

theorem decodeLoop_scanned (stops : StopList) (h : d.scanned = d.text.length) (steps : List Step)
    (hnone : (decodeLoop false stops d steps).hitStop = none) :
    (decodeLoop false stops d steps).scanned = (decodeLoop false stops d steps).text.length := by
  induction steps generalizing d with
  | nil => exact h
  | cons step steps ih =>
    simp only [decodeLoop] at hnone ⊢
    cases hhit : (decodeStep false stops d step).hitStop with
    | none =>
      rw [hhit] at hnone
      apply ih _ hnone
      have hfind : stopListFindFrom stops (d.text ++ step.piece) d.stopScanFrom = none := hhit
      simp [decodeStep, hfind]
    | some stop => simp [hhit] at hnone

theorem Scanning.find_none (h : Scanning stops d) (hscanned : d.generated.length ≤ d.scanned) :
    stopListFindFrom stops d.generated 0 = none := by
  rw [h.generated] at hscanned ⊢
  rw [stopListFindFrom_eq_none_iff stops h.terminated]
  rintro j - ⟨s, hs, hpre⟩
  have hbehind := h.noStop s hs j hpre
  have hlen := hpre.length_le
  have hpos := length_pos_of_ne_nil (stops.wellFormed s hs).1
  rw [length_drop] at hlen
  omega

theorem plainDeltas_flatten (hzero : (0 : UInt8) ∉ d.text)
    (h : d.deltas.flatten = d.text.take d.plainStreamPos) : (plainDeltas d).flatten = d.text := by
  unfold plainDeltas
  split
  · rename_i hlt
    rw [flatten_append, h, wireText_slice hzero]
    simp only [flatten_cons, flatten_nil, append_nil]
    rw [take_append_slice _ (Nat.le_of_lt hlt), take_length]
  · rename_i hle
    rw [h, take_of_length_le (Nat.le_of_not_lt hle)]

theorem decodeLoop_generated_zero (structured : Bool) (stops : StopList)
    (h : (0 : UInt8) ∉ d.text) (steps : List Step) (hd : (0 : UInt8) ∉ d.generated)
    (hzero : ∀ s ∈ steps, (0 : UInt8) ∉ s.piece ∧ (0 : UInt8) ∉ s.injected) :
    (0 : UInt8) ∉ (decodeLoop structured stops d steps).text ∧
      (0 : UInt8) ∉ (decodeLoop structured stops d steps).generated := by
  induction steps generalizing d with
  | nil => exact ⟨h, hd⟩
  | cons step steps ih =>
    obtain ⟨hpiece, hinjected⟩ := hzero step mem_cons_self
    have hwhole : (0 : UInt8) ∉ d.text ++ step.piece ++ if structured then step.injected else [] := by
      split <;> simp [h, hpiece, hinjected]
    have htext : (0 : UInt8) ∉ (decodeStep structured stops d step).text := by
      simp only [decodeStep]
      split
      · intro hmem
        have := mem_of_mem_take hmem
        simp [h, hpiece] at this
      · exact hwhole
    have hgenerated : (0 : UInt8) ∉ (decodeStep structured stops d step).generated := by
      simp only [decodeStep]
      split
      · simp [h, hpiece]
      · exact hwhole
    simp only [decodeLoop]
    split
    · exact ⟨htext, hgenerated⟩
    · exact ih htext hgenerated fun s hs => hzero s (mem_cons_of_mem step hs)

theorem plainDeltas_eq (stops : StopList) (steps : List Step)
    (hzero : ∀ s ∈ steps, (0 : UInt8) ∉ s.piece ∧ (0 : UInt8) ∉ s.injected) :
    (plainDeltas (decodeLoop false stops decodingStart steps)).flatten =
      cutAtStop stops (decodeLoop false stops decodingStart steps).generated := by
  have hscanned := decodeLoop_scanned stops (rfl : decodingStart.scanned = _) steps
  obtain ⟨hterminated, -⟩ := decodeLoop_generated_zero false stops
    (d := decodingStart) (by simp [decodingStart]) steps (by simp [decodingStart]) hzero
  rcases (scanning_start stops).loop false steps hzero with hscan | ⟨stop, hstop⟩
  · have hnone := hscan.find_none (by rw [hscan.generated, hscanned hscan.noHit])
    rw [plainDeltas_flatten hterminated hscan.deltas, cutAtStop, hnone, hscan.generated]
  · rw [plainDeltas_flatten hterminated hstop.deltas, cutAtStop, hstop.earliest, hstop.text]

/-! ### Structured streams -/

/-- The cursor the text branch of an update starts from. -/
def textCursor (cur : Cursor) (raw : Bytes) (rawLen : ℕ) (final : Bool) : Cursor :=
  if cur.mode = .thinking then (readThinking cur raw rawLen final).cur else cur

/-- The tag that an update finds starts, separator included, in front of the stop, or
right where the update begins to read. -/
def TagsInFront (hasTools : Bool) (stop : ℕ) (cur : Cursor) (raw : Bytes) (rawLen : ℕ)
    (final : Bool) : Prop :=
  (cur.mode = .thinking → waitsForThinkPrefix cur raw rawLen final = false →
    ∀ i ∈ strstrFrom raw (skipThinkPrefix cur raw rawLen) Tokenizer.thinkEnd,
      i ≤ max stop (skipThinkPrefix cur raw rawLen)) ∧
  ((textCursor cur raw rawLen final).mode = .text → hasTools = true →
    ∀ i ∈ findAnyToolStart raw (textCursor cur raw rawLen final).emitPos,
      trimSeparator raw (textCursor cur raw rawLen final).emitPos i ≤
        max stop (textCursor cur raw rawLen final).emitPos)

instance (hasTools : Bool) (stop : ℕ) (cur : Cursor) (raw : Bytes) (rawLen : ℕ) (final : Bool) :
    Decidable (TagsInFront hasTools stop cur raw rawLen final) :=
  inferInstanceAs (Decidable (_ ∧ _))

theorem lt_of_slice_ne_nil {raw : Bytes} {start limit : ℕ} (h : slice raw start limit ≠ []) :
    start < limit := by
  by_contra hle
  apply h
  simp [slice, Nat.sub_eq_zero_of_le (Nat.le_of_not_lt hle)]

theorem thinkingLimit_none_le (raw : Bytes) (start rawLen : ℕ) (final : Bool) :
    thinkingLimit raw start rawLen final none ≤ max start rawLen := by
  cases final with
  | true => exact Nat.le_max_right _ _
  | false =>
    refine Nat.le_trans (utf8StreamSafeLen_le _ _ _ _) ?_
    split <;> omega

section

variable {raw generated : Bytes} {hasTools final : Bool} {stop rawLen : ℕ} {cur : Cursor}

theorem readThinking_limit (hlen : rawLen ≤ stop) (hmode : cur.mode = .thinking)
    (htags : TagsInFront hasTools stop cur raw rawLen final)
    (hdelta : (readThinking cur raw rawLen final).delta ≠ []) :
    (readThinking cur raw rawLen final).limit ≤ stop := by
  unfold readThinking at hdelta ⊢
  by_cases hwait : waitsForThinkPrefix cur raw rawLen final = true
  · rw [if_pos hwait] at hdelta
    exact absurd rfl hdelta
  · rw [if_neg hwait] at hdelta ⊢
    have hlt := lt_of_slice_ne_nil hdelta
    simp only at hlt ⊢
    cases hclose : strstrFrom raw (skipThinkPrefix cur raw rawLen) Tokenizer.thinkEnd with
    | some i =>
      rw [hclose] at hlt
      have hle := htags.1 hmode (Bool.eq_false_iff.mpr hwait) i hclose
      simp only [thinkingLimit] at hlt ⊢
      omega
    | none =>
      rw [hclose] at hlt
      have hle := thinkingLimit_none_le raw (skipThinkPrefix cur raw rawLen) rawLen final
      omega

theorem trimSeparator_le (raw : Bytes) (start n : ℕ) : trimSeparator raw start n ≤ n := by
  induction n with
  | zero => exact Nat.le_refl 0
  | succ n ih =>
    unfold trimSeparator
    split <;> omega

theorem holdMarker_le (raw : Bytes) (start rawLen : ℕ) : holdMarker raw start rawLen ≤ rawLen := by
  have htrim := trimSeparator_le raw start rawLen
  refine Nat.le_trans (trimSeparator_le _ _ _) ?_
  split
  · split <;> omega
  · exact htrim

theorem readText_limit (hlen : rawLen ≤ stop)
    (htags : hasTools = true → ∀ i, findAnyToolStart raw cur.emitPos = some i →
      trimSeparator raw cur.emitPos i ≤ max stop cur.emitPos)
    (hdelta : (readText cur raw rawLen hasTools final).delta ≠ []) :
    (readText cur raw rawLen hasTools final).limit ≤ stop := by
  have hlt := lt_of_slice_ne_nil hdelta
  change cur.emitPos < textStreamSafeLimit raw cur.emitPos rawLen hasTools final at hlt
  change textStreamSafeLimit raw cur.emitPos rawLen hasTools final ≤ stop
  unfold textStreamSafeLimit at hlt ⊢
  by_cases hshort : rawLen ≤ cur.emitPos
  · rw [if_pos hshort] at hlt
    omega
  · rw [if_neg hshort] at hlt ⊢
    cases hasTools with
    | false =>
      simp only at hlt ⊢
      have := utf8StreamSafeLen_le raw cur.emitPos rawLen final
      omega
    | true =>
      cases htool : findAnyToolStart raw cur.emitPos with
      | some i =>
        have hle := htags rfl i htool
        have := utf8StreamSafeLen_le raw cur.emitPos (trimSeparator raw cur.emitPos i) true
        simp only at hlt ⊢
        omega
      | none =>
        simp only at hlt ⊢
        have hle := utf8StreamSafeLen_le raw cur.emitPos
          (if final then rawLen else holdMarker raw cur.emitPos rawLen) final
        have hhold := holdMarker_le raw cur.emitPos rawLen
        have hinner : (if final then rawLen else holdMarker raw cur.emitPos rawLen) ≤ rawLen := by
          split <;> omega
        omega

theorem strstrFrom_le  {start i : ℕ} {pat : Bytes} (hpat : pat ≠ [])
    (h : strstrFrom raw start pat = some i) : i ≤ raw.length := by
  obtain ⟨j, hj, rfl⟩ := map_eq_some_iff.mp h
  have hbound := find_bound hj
  have hcstr : (cstr (raw.drop start)).length ≤ (raw.drop start).length :=
    ( takeWhile_prefix _).length_le
  have hpos := length_pos_of_ne_nil hpat
  rw [length_drop] at hcstr
  omega

theorem findAnyToolStart_le  {start i : ℕ} (h : findAnyToolStart raw start = some i) :
    i ≤ raw.length := by
  have hmarks : ∀ x ∈ [Dsml.dsml, Dsml.dsmlShort, Dsml.plain], x.toolCallsStart ≠ [] := by decide
  obtain ⟨hmem, -⟩ := (earliest_eq_some_iff _ _).mp h
  obtain ⟨x, hx, hfind⟩ := mem_map.mp hmem
  exact strstrFrom_le (hmarks x hx) hfind

theorem tagsInFront_of_length (hasTools : Bool)  (cur : Cursor)
    (rawLen : ℕ) (final : Bool) (h : raw.length ≤ stop) :
    TagsInFront hasTools stop cur raw rawLen final := by
  refine ⟨?_, ?_⟩
  · intro _ _ i hi
    have := strstrFrom_le (by decide) hi
    omega
  · intro _ _ i hi
    have := findAnyToolStart_le hi
    have := trimSeparator_le raw (textCursor cur raw rawLen final).emitPos i
    omega

/-- A delta with its place, which is in front of the stop and where its text stands. -/
def InFront (generated : Bytes) (stop : ℕ) (delta : (ℕ × ℕ) × Bytes) : Prop :=
  delta.1.2 ≤ stop ∧ delta.2 = slice generated delta.1.1 delta.1.2

theorem wireText_slice_of_prefix {raw generated : Bytes} (hzero : (0 : UInt8) ∉ generated)
    (hfront : raw <+: generated) {start limit : ℕ} (hlimit : limit ≤ raw.length) :
    wireText (slice raw start limit) = slice generated start limit := by
  obtain ⟨rest, rfl⟩ := hfront
  have hraw : (0 : UInt8) ∉ raw := fun hmem => hzero (mem_append_left rest hmem)
  rw [wireText_slice hraw]
  unfold slice
  by_cases hstart : start ≤ raw.length
  · rw [drop_append_of_le_length hstart, take_append_of_le_length]
    rw [length_drop]
    omega
  · rw [Nat.sub_eq_zero_of_le (by omega), take_zero, take_zero]

/-- What the thinking branch sends is generated text in front of the stop. -/
theorem readThinking_inFront (hzero : (0 : UInt8) ∉ generated)
    (hreads : Reads generated stop (raw, rawLen)) (hmode : cur.mode = .thinking)
    (htags : TagsInFront hasTools stop cur raw rawLen final)
    (hdelta : (readThinking cur raw rawLen final).delta ≠ []) :
    InFront generated stop (((readThinking cur raw rawLen final).start,
      (readThinking cur raw rawLen final).limit),
      wireText (readThinking cur raw rawLen final).delta) := by
  have hinside : (readThinking cur raw rawLen final).limit ≤ raw.length :=
    readThinking_limit hreads.inside hmode
    (tagsInFront_of_length hasTools cur rawLen final (Nat.le_refl _)) hdelta
  refine ⟨readThinking_limit hreads.len hmode htags hdelta, ?_⟩
  rw [← wireText_slice_of_prefix hzero hreads.front hinside]
  unfold readThinking at hdelta ⊢
  split at hdelta
  · exact absurd rfl hdelta
  · rename_i hread
    rw [if_neg hread]

/-- What the text branch sends is generated text in front of the stop. -/
theorem readText_inFront (hzero : (0 : UInt8) ∉ generated)
    (hreads : Reads generated stop (raw, rawLen))
    (htags : hasTools = true → ∀ i, findAnyToolStart raw cur.emitPos = some i →
      trimSeparator raw cur.emitPos i ≤ max stop cur.emitPos)
    (hdelta : (readText cur raw rawLen hasTools final).delta ≠ []) :
    InFront generated stop (((readText cur raw rawLen hasTools final).start,
      (readText cur raw rawLen hasTools final).limit),
      wireText (readText cur raw rawLen hasTools final).delta) := by
  have hinside : (readText cur raw rawLen hasTools final).limit ≤ raw.length := by
    apply readText_limit hreads.inside _ hdelta
    intro _ i hi
    have htool := findAnyToolStart_le hi
    have htrim := trimSeparator_le raw cur.emitPos i
    exact Nat.le_trans (Nat.le_trans htrim htool) (Nat.le_max_left _ _)
  refine ⟨readText_limit hreads.len htags hdelta, ?_⟩
  rw [← wireText_slice_of_prefix hzero hreads.front hinside]
  rfl

theorem reads_of_textCursor (h : (textCursor cur raw rawLen final).mode = .text) :
    cur.mode = .thinking ∨ cur.mode = .text := by
  unfold textCursor at h
  by_cases hmode : cur.mode = .thinking
  · exact Or.inl hmode
  · rw [if_neg hmode] at h
    exact Or.inr h

end

/-- The stream reads tool calls, or nothing any more. -/
def PastText (cur : Cursor) : Prop := cur.mode = .tool ∨ cur.mode = .suppress

theorem Stopped.lastUpdate {stop : ℕ} (h : Stopped stops d stop) (hasTools : Bool) {raw : Bytes}
    {cur : Cursor} (hraw : raw = d.text ∨ PastText cur) :
    (cur.mode = .thinking ∨ cur.mode = .text → Reads d.generated stop (raw, raw.length)) ∧
      TagsInFront hasTools stop cur raw raw.length true := by
  rcases hraw with rfl | hpast
  · have hlen : d.text.length ≤ stop := by
      rw [h.text]
      exact length_take_le _ _
    refine ⟨fun _ => ⟨?_, Nat.le_refl _, hlen⟩, tagsInFront_of_length hasTools cur _ true hlen⟩
    rw [h.text]
    exact take_prefix _ _
  · have hthinking : cur.mode ≠ .thinking := by rcases hpast with h | h <;> simp [h]
    have htext : cur.mode ≠ .text := by rcases hpast with h | h <;> simp [h]
    refine ⟨fun hmode => ?_, fun hmode => absurd hmode hthinking, fun hmode => ?_⟩
    · rcases hmode with hmode | hmode
      · exact absurd hmode hthinking
      · exact absurd hmode htext
    · rcases reads_of_textCursor hmode with hmode | hmode
      · exact absurd hmode hthinking
      · exact absurd hmode htext

/-- Every update of a run meets a condition on the stream before it. -/
def EachUpdate {σ : Type*} (update : σ → Bytes → ℕ → σ) (ok : σ → Bytes → ℕ → Prop) :
    σ → List (Bytes × ℕ) → Prop
  | _, [] => True
  | st, u :: updates => ok st u.1 u.2 ∧ EachUpdate update ok (update st u.1 u.2) updates

instance EachUpdate.decidable {σ : Type*} (update : σ → Bytes → ℕ → σ) (ok : σ → Bytes → ℕ → Prop)
    [∀ st raw rawLen, Decidable (ok st raw rawLen)] :
    (st : σ) → (updates : List (Bytes × ℕ)) → Decidable (EachUpdate update ok st updates)
  | _, [] => .isTrue trivial
  | st, u :: updates =>
      have := EachUpdate.decidable update ok (update st u.1 u.2) updates
      inferInstanceAs (Decidable (ok st u.1 u.2 ∧ _))

/-! #### Chat completions -/

/-- A content or reasoning delta and where it stands in the generated text. -/
def OpenaiEvent.delta? : OpenaiEvent → Option ((ℕ × ℕ) × Bytes)
  | .reasoning place text => some (place, text)
  | .content place text => some (place, text)
  | _ => none

/-- Every content and reasoning delta is generated text in front of the stop. -/
def OpenaiStream.Within (generated : Bytes) (stop : ℕ) (st : OpenaiStream) : Prop :=
  ∀ e ∈ st.sent, ∀ delta, e.delta? = some delta → InFront generated stop delta

section

variable {generated : Bytes} {stop : ℕ}

theorem OpenaiStream.Within.append {st st' : OpenaiStream} (h : st.Within generated stop)
    {events : List OpenaiEvent} (hsent : st'.sent = st.sent ++ events)
    (hevents : ∀ e ∈ events, ∀ delta, e.delta? = some delta → InFront generated stop delta) :
    st'.Within generated stop := by
  intro e he delta hdelta
  rw [hsent] at he
  rcases mem_append.mp he with hold | hnew
  · exact h e hold delta hdelta
  · exact hevents e hnew delta hdelta

theorem openaiToolEvent_delta {e : ToolEvent} {o : OpenaiEvent} (h : o ∈ openaiToolEvent e) :
    o.delta? = none := by
  cases e with
  | start index name =>
    rw [mem_singleton.mp h]
    rfl
  | args index text =>
    rw [mem_singleton.mp h]
    rfl
  | stop index => simp [openaiToolEvent] at h

variable {hasTools : Bool} {raw : Bytes} {rawLen : ℕ} {final : Bool} {st : OpenaiStream}

section

variable (hzero : (0 : UInt8) ∉ generated)

include hzero

section

variable (h : st.Within generated stop)

include h

theorem openaiThinkingBranch_within (hreads : Reads generated stop (raw, rawLen))
    (hmode : st.cur.mode = .thinking) (htags : TagsInFront hasTools stop st.cur raw rawLen final) :
    (openaiThinkingBranch st raw rawLen final).Within generated stop := by
  simp only [openaiThinkingBranch]
  split_ifs with hdelta
  · apply h.append rfl
    intro e he delta hsome
    rw [mem_singleton.mp he] at hsome
    rw [← some.inj hsome]
    exact readThinking_inFront hzero hreads hmode htags hdelta
  · exact h

theorem openaiTextBranch_within (hreads : Reads generated stop (raw, rawLen))
    (htags : hasTools = true → ∀ i, findAnyToolStart raw st.cur.emitPos = some i →
      trimSeparator raw st.cur.emitPos i ≤ max stop st.cur.emitPos) :
    (openaiTextBranch hasTools st raw rawLen final).Within generated stop := by
  have hsent : (openaiTextBranch hasTools st raw rawLen final).sent =
      st.sent ++ if (readText st.cur raw rawLen hasTools final).delta ≠ [] then
        [.content ((readText st.cur raw rawLen hasTools final).start,
          (readText st.cur raw rawLen hasTools final).limit)
          (wireText (readText st.cur raw rawLen hasTools final).delta)] else [] := by
    simp only [openaiTextBranch]
    split_ifs <;> split <;> (try split) <;> simp
  apply h.append hsent
  intro e he delta hsome
  split at he
  · rename_i hdelta
    rw [mem_singleton.mp he] at hsome
    rw [← some.inj hsome]
    exact readText_inFront hzero hreads htags hdelta
  · cases he

/-- An update that reads in front of the stop sends nothing behind it. -/
theorem openaiSseStreamUpdate_within
    (hreads : st.cur.mode = .thinking ∨ st.cur.mode = .text → Reads generated stop (raw, rawLen))
    (htags : TagsInFront hasTools stop st.cur raw rawLen final) :
    (openaiSseStreamUpdate hasTools st raw rawLen final).Within generated stop := by
  unfold openaiSseStreamUpdate
  split
  · exact h
  · have hthinking : (if st.cur.mode = .thinking then openaiThinkingBranch st raw rawLen final
        else st).Within generated stop ∧
        (if st.cur.mode = .thinking then openaiThinkingBranch st raw rawLen final else st).cur =
          textCursor st.cur raw rawLen final := by
      unfold textCursor
      split
      · rename_i hmode
        refine ⟨openaiThinkingBranch_within hzero h (hreads (Or.inl hmode)) hmode htags, ?_⟩
        simp only [openaiThinkingBranch]
        split_ifs <;> rfl
      · exact ⟨h, rfl⟩
    generalize (if st.cur.mode = .thinking then openaiThinkingBranch st raw rawLen final
      else st) = mid at hthinking ⊢
    obtain ⟨hmid, hcur⟩ := hthinking
    have htext : (if mid.cur.mode = .text then openaiTextBranch hasTools mid raw rawLen final
        else mid).Within generated stop := by
      split
      · rename_i hmode
        rw [hcur] at hmode
        apply openaiTextBranch_within hzero hmid (hreads (reads_of_textCursor hmode))
        rw [hcur]
        exact htags.2 hmode
      · exact hmid
    simp only
    generalize (if mid.cur.mode = .text then openaiTextBranch hasTools mid raw rawLen final
      else mid) = last at htext ⊢
    split
    · apply htext.append rfl
      intro e he delta hdelta
      obtain ⟨t, -, ht⟩ := mem_flatMap.mp he
      rw [openaiToolEvent_delta ht] at hdelta
      cases hdelta
    · exact htext

theorem openaiUpdates_within (updates : List (Bytes × ℕ))
    (hreads : ∀ u ∈ updates, Reads generated stop u)
    (htags : EachUpdate (openaiSseStreamUpdate hasTools · · · false)
      (fun st raw rawLen => TagsInFront hasTools stop st.cur raw rawLen false) st updates) :
    (openaiUpdates hasTools st updates).Within generated stop := by
  induction updates generalizing st with
  | nil => exact h
  | cons u updates ih =>
    have hfirst := openaiSseStreamUpdate_within hzero h (fun _ => hreads u mem_cons_self) htags.1
    exact ih hfirst (fun v hv => hreads v (mem_cons_of_mem u hv)) htags.2

end

end

theorem openaiSseFinishLive_within
    (h : (openaiSseStreamUpdate hasTools st raw rawLen true).Within generated stop)
    (calls : List Dsml.ToolCall) (finish : Finish) :
    (openaiSseFinishLive hasTools st raw rawLen calls finish).Within generated stop := by
  apply h.append (append_assoc _ _ _)
  intro e he delta hdelta
  rcases mem_append.mp he with hwhole | hfinish
  · split at hwhole
    · rw [mem_singleton.mp hwhole] at hdelta
      cases hdelta
    · cases hwhole
  · rw [mem_singleton.mp hfinish] at hdelta
    cases hdelta

/-- The stream of a chat completion. The last update reads the text, or what a repair
of an unterminated tool block has made of it. -/
def openaiRun (think hasTools : Bool) (d : Decoding) (raw : Bytes) (calls : List Dsml.ToolCall)
    (finish : Finish) : OpenaiStream :=
  openaiSseFinishLive hasTools (openaiUpdates hasTools (openaiStreamStart think) d.updates)
    raw raw.length calls finish

/-- Every update finds its tag in front of the stop, and repaired text is left to a
stream that is behind its content. -/
def OpenaiTagsInFront (think hasTools : Bool) (stop : ℕ) (d : Decoding) (raw : Bytes) : Prop :=
  EachUpdate (openaiSseStreamUpdate hasTools · · · false)
    (fun st raw rawLen => TagsInFront hasTools stop st.cur raw rawLen false)
    (openaiStreamStart think) d.updates ∧
  (raw = d.text ∨
    PastText (openaiUpdates hasTools (openaiStreamStart think) d.updates).cur)

theorem openaiRun_within {stops : StopList} {d : Decoding} (h : Stopped stops d stop)
    {think hasTools : Bool} (htags : OpenaiTagsInFront think hasTools stop d raw)
    (calls : List Dsml.ToolCall) (finish : Finish) :
    (openaiRun think hasTools d raw calls finish).Within d.generated stop := by
  have hupdates : (openaiUpdates hasTools (openaiStreamStart think) d.updates).Within
      d.generated stop := openaiUpdates_within h.terminated
      (fun e he => absurd he not_mem_nil) d.updates h.updates htags.1
  apply openaiSseFinishLive_within
  obtain ⟨hreads, hlast⟩ := h.lastUpdate hasTools htags.2
  exact openaiSseStreamUpdate_within h.terminated hupdates hreads hlast

/-! #### Messages -/

/-- A text or thinking delta and where it stands in the generated text. -/
def AnthropicEvent.delta? : AnthropicEvent → Option ((ℕ × ℕ) × Bytes)
  | .contentBlockDelta _ (.thinking text) place => place.map (·, text)
  | .contentBlockDelta _ (.text text) place => place.map (·, text)
  | _ => none

/-- Every text and thinking delta is generated text in front of the stop. -/
def AnthropicStream.Within (generated : Bytes) (stop : ℕ) (st : AnthropicStream) : Prop :=
  ∀ e ∈ st.sent, ∀ delta, e.delta? = some delta → InFront generated stop delta

variable {st : AnthropicStream}

theorem AnthropicStream.Within.emit (h : st.Within generated stop) {e : AnthropicEvent}
    (he : ∀ delta, e.delta? = some delta → InFront generated stop delta) :
    (st.emit e).Within generated stop := by
  intro e' he' delta hdelta
  rcases mem_append.mp he' with hold | hnew
  · exact h e' hold delta hdelta
  · rw [mem_singleton.mp hnew] at hdelta
    exact he delta hdelta

/-- An event that is not read from the text keeps the deltas where they are. -/
theorem AnthropicStream.Within.emit_none (h : st.Within generated stop) {e : AnthropicEvent}
    (he : e.delta? = none) : (st.emit e).Within generated stop := by
  apply h.emit
  intro delta hdelta
  rw [he] at hdelta
  cases hdelta

theorem AnthropicResult.within_andThen {x : AnthropicResult} {f : AnthropicStream → AnthropicResult}
    (hx : x.1.Within generated stop) (hf : x.2 = true → (f x.1).1.Within generated stop) :
    (x.andThen f).1.Within generated stop := by
  unfold AnthropicResult.andThen
  split
  · rename_i hok
    exact hf hok
  · exact hx

theorem AnthropicStream.Within.openBlock (h : st.Within generated stop) (block : Block)
    (name : Bytes) : (anthropicSseOpenBlock block name st).1.Within generated stop := by
  unfold anthropicSseOpenBlock
  split
  · exact h
  · split
    · exact h
    · exact h.emit_none rfl

theorem AnthropicStream.Within.closeBlock (h : st.Within generated stop) :
    (anthropicSseCloseBlockLive st).Within generated stop := by
  unfold anthropicSseCloseBlockLive
  split
  · exact h
  · simp only
    split
    · exact (h.emit_none rfl).emit_none rfl
    · exact h.emit_none rfl

theorem AnthropicStream.Within.toolEvents (h : st.Within generated stop) (events : List ToolEvent) :
    (anthropicToolEvents st events).1.Within generated stop := by
  induction events generalizing st with
  | nil => exact h
  | cons e events ih =>
    apply AnthropicResult.within_andThen
    · cases e with
      | start index name => exact h.openBlock .tool name
      | args index text => exact h.emit_none rfl
      | stop index => exact h.closeBlock
    · intro _
      apply ih
      cases e with
      | start index name => exact h.openBlock .tool name
      | args index text => exact h.emit_none rfl
      | stop index => exact h.closeBlock

theorem AnthropicStream.Within.sendReading (h : st.Within generated stop) (block : Block)
    {rd : Reading}
    (hrd : rd.delta ≠ [] → InFront generated stop ((rd.start, rd.limit), wireText rd.delta)) :
    (sendReading block rd st).1.Within generated stop := by
  unfold Stream.sendReading
  split
  · rename_i hdelta
    apply AnthropicResult.within_andThen (h.openBlock block [])
    intro _
    apply (h.openBlock block []).emit
    intro delta hsome
    by_cases hblock : block = .thinking
    · rw [if_pos hblock] at hsome
      rw [← some.inj hsome]
      exact hrd hdelta
    · rw [if_neg hblock] at hsome
      rw [← some.inj hsome]
      exact hrd hdelta
  · exact h

theorem anthropicThinkingBranch_within (hzero : (0 : UInt8) ∉ generated)
    (h : st.Within generated stop) (hreads : Reads generated stop (raw, rawLen))
    (hmode : st.cur.mode = .thinking) (htags : TagsInFront hasTools stop st.cur raw rawLen final) :
    (anthropicThinkingBranch st raw rawLen final).1.Within generated stop := by
  have hsend := h.sendReading .thinking (readThinking_inFront hzero hreads hmode htags)
  apply AnthropicResult.within_andThen hsend
  intro _
  split
  · exact hsend.closeBlock
  · exact hsend

/-- A thinking branch that succeeds leaves the cursor behind what it has read. -/
theorem anthropicThinkingBranch_cur (hok : (anthropicThinkingBranch st raw rawLen final).2 = true) :
    (anthropicThinkingBranch st raw rawLen final).1.cur =
      (readThinking st.cur raw rawLen final).cur := by
  simp only [anthropicThinkingBranch, AnthropicResult.andThen] at hok ⊢
  by_cases hsent : (sendReading .thinking (readThinking st.cur raw rawLen final) st).2 = true
  · rw [if_pos hsent]
    split_ifs <;> rfl
  · rw [if_neg hsent] at hok
    exact absurd hok hsent

theorem anthropicTextBranch_within (hzero : (0 : UInt8) ∉ generated) (h : st.Within generated stop)
    (hreads : Reads generated stop (raw, rawLen))
    (htags : hasTools = true → ∀ i, findAnyToolStart raw st.cur.emitPos = some i →
      trimSeparator raw st.cur.emitPos i ≤ max stop st.cur.emitPos) :
    (anthropicTextBranch hasTools st raw rawLen final).1.Within generated stop := by
  have hsend : (sendReading .text (readText st.cur raw rawLen hasTools final) st).1.Within
      generated stop :=
    h.sendReading .text (readText_inFront hzero hreads htags)
  apply AnthropicResult.within_andThen hsend
  intro _
  split
  · split
    · exact hsend.closeBlock
    · exact hsend.closeBlock
  · split
    · exact hsend.closeBlock
    · exact hsend

theorem anthropicToolBranch_within (h : st.Within generated stop) (raw : Bytes) (rawLen : ℕ) :
    (anthropicToolBranch st raw rawLen).1.Within generated stop := by
  have htool : ({ st with tool := (toolStreamUpdate st.tool raw rawLen).1 } :
      AnthropicStream).Within generated stop := h
  have hsteps := htool.toolEvents (toolStreamUpdate st.tool raw rawLen).2
  apply AnthropicResult.within_andThen hsteps
  intro _
  split
  · exact hsteps
  · exact hsteps

theorem inMode_within {mode : Mode} {branch : AnthropicStream → AnthropicResult}
    (h : st.Within generated stop)
    (hbranch : st.cur.mode = mode → (branch st).1.Within generated stop) :
    (inMode mode branch st).1.Within generated stop := by
  unfold inMode
  split
  · rename_i hmode
    exact hbranch hmode
  · exact h

theorem anthropicSseStreamUpdate_within (hzero : (0 : UInt8) ∉ generated)
    (h : st.Within generated stop)
    (hreads : st.cur.mode = .thinking ∨ st.cur.mode = .text → Reads generated stop (raw, rawLen))
    (htags : TagsInFront hasTools stop st.cur raw rawLen final) :
    (anthropicSseStreamUpdate hasTools st raw rawLen final).1.Within generated stop := by
  unfold anthropicSseStreamUpdate
  split
  · exact h
  · have hthinking : (inMode .thinking (anthropicThinkingBranch · raw rawLen final) st).1.Within
        generated stop :=
      inMode_within h fun hmode =>
        anthropicThinkingBranch_within hzero h (hreads (Or.inl hmode)) hmode htags
    have hcur : (inMode .thinking (anthropicThinkingBranch · raw rawLen final) st).2 = true →
        (inMode .thinking (anthropicThinkingBranch · raw rawLen final) st).1.cur =
          textCursor st.cur raw rawLen final := by
      unfold inMode textCursor
      intro hok
      by_cases hmode : st.cur.mode = .thinking
      · rw [if_pos hmode] at hok
        rw [if_pos hmode, if_pos hmode]
        exact anthropicThinkingBranch_cur hok
      · rw [if_neg hmode, if_neg hmode]
    have htext := AnthropicResult.within_andThen
      (f := inMode .text (anthropicTextBranch hasTools · raw rawLen final)) hthinking <| by
        intro hok
        apply inMode_within hthinking
        intro hmode
        rw [hcur hok] at hmode
        apply anthropicTextBranch_within hzero hthinking (hreads (reads_of_textCursor hmode))
        rw [hcur hok]
        exact htags.2 hmode
    apply AnthropicResult.within_andThen htext
    intro _
    exact inMode_within htext fun _ => anthropicToolBranch_within htext raw rawLen

theorem anthropicUpdates_within (hzero : (0 : UInt8) ∉ generated)
    (h : st.Within generated stop) (updates : List (Bytes × ℕ))
    (hreads : ∀ u ∈ updates, Reads generated stop u) (htags : EachUpdate
      (fun st raw rawLen => (anthropicSseStreamUpdate hasTools st raw rawLen false).1)
      (fun st raw rawLen => TagsInFront hasTools stop st.cur raw rawLen false) st updates) :
    (anthropicUpdates hasTools st updates).1.Within generated stop := by
  induction updates generalizing st with
  | nil => exact h
  | cons u updates ih =>
    have hfirst := anthropicSseStreamUpdate_within hzero h (fun _ => hreads u mem_cons_self) htags.1
    apply AnthropicResult.within_andThen hfirst
    intro _
    exact ih hfirst (fun v hv => hreads v (mem_cons_of_mem u hv)) htags.2

theorem AnthropicStream.Within.toolBlocks (h : st.Within generated stop)
    (calls : List Dsml.ToolCall) : (anthropicSseToolBlocksLive st calls).Within generated stop := by
  unfold anthropicSseToolBlocksLive
  generalize calls.drop (if st.tool.emittedAny then st.tool.index else 0) = rest
  induction rest generalizing st with
  | nil => exact h
  | cons tc rest ih =>
    apply ih
    intro e he delta hdelta
    rcases mem_append.mp he with hold | hnew
    · exact h e hold delta hdelta
    · simp only [toolBlockEvents, mem_cons, not_mem_nil, or_false] at hnew
      rcases hnew with rfl | rfl | rfl <;> cases hdelta

theorem anthropicSseFinishLive_within
    (h : (anthropicSseStreamUpdate hasTools st raw rawLen true).1.Within generated stop)
    (calls : List Dsml.ToolCall) (finish : Finish) :
    (anthropicSseFinishLive hasTools st raw rawLen calls finish).1.Within generated stop := by
  have hblock := AnthropicResult.within_andThen
    (f := fun st => if st.sentThinking && !st.sentText && calls.isEmpty then
      (anthropicSseOpenBlock .text [] st).andThen fun st => (anthropicSseCloseBlockLive st, true)
      else (st, true)) h <| by
        intro _
        split
        · apply AnthropicResult.within_andThen (h.openBlock .text [])
          intro _
          exact (h.openBlock .text []).closeBlock
        · exact h
  apply AnthropicResult.within_andThen hblock
  intro _
  exact ((hblock.toolBlocks calls).emit_none rfl).emit_none rfl

/-- The stream of a message. -/
def anthropicRun (think hasTools : Bool) (d : Decoding) (raw : Bytes) (calls : List Dsml.ToolCall)
    (finish : Finish) : AnthropicStream :=
  (anthropicSseFinishLive hasTools
    (anthropicUpdates hasTools (anthropicStart think) d.updates).1 raw raw.length calls finish).1

def AnthropicTagsInFront (think hasTools : Bool) (stop : ℕ) (d : Decoding) (raw : Bytes) : Prop :=
  EachUpdate (fun st raw rawLen => (anthropicSseStreamUpdate hasTools st raw rawLen false).1)
    (fun st raw rawLen => TagsInFront hasTools stop st.cur raw rawLen false)
    (anthropicStart think) d.updates ∧
  (raw = d.text ∨
    PastText (anthropicUpdates hasTools (anthropicStart think) d.updates).1.cur)

theorem anthropicRun_within {stops : StopList} {d : Decoding} (h : Stopped stops d stop)
    {think hasTools : Bool} (htags : AnthropicTagsInFront think hasTools stop d raw)
    (calls : List Dsml.ToolCall) (finish : Finish) :
    (anthropicRun think hasTools d raw calls finish).Within d.generated stop := by
  have hupdates : (anthropicUpdates hasTools (anthropicStart think) d.updates).1.Within
      d.generated stop := anthropicUpdates_within h.terminated
      (fun e he => absurd he not_mem_nil) d.updates h.updates htags.1
  apply anthropicSseFinishLive_within
  obtain ⟨hreads, hlast⟩ := h.lastUpdate hasTools htags.2
  exact anthropicSseStreamUpdate_within h.terminated hupdates hreads hlast

end

/-! ### Every run -/

/-- A run whose generated text has a stop in its searched part has found it. -/
theorem stopped_of_find {steps : List Step}
    (hzero : ∀ s ∈ steps, (0 : UInt8) ∉ s.piece ∧ (0 : UInt8) ∉ s.injected) {stop : ℕ}
    (hfind : stopListFindFrom stops
      (decodeLoop structured stops decodingStart steps).generated 0 = some stop)
    (hscanned : (decodeLoop structured stops decodingStart steps).generated.length ≤
      (decodeLoop structured stops decodingStart steps).scanned) :
    Stopped stops (decodeLoop structured stops decodingStart steps) stop := by
  rcases (scanning_start stops).loop structured steps hzero with hscan | ⟨stop', hstop⟩
  · rw [hscan.find_none hscanned] at hfind
    cases hfind
  · have heq := hstop.earliest
    rw [hfind] at heq
    rwa [some.inj heq]

/-- Plain streams send the generated text cut at its earliest stop. Structured streams
send nothing behind the earliest stop, when their tags start in front of it. -/
theorem stop_never_leaks (stops : StopList) (steps : List Step)
    (hzero : ∀ s ∈ steps, (0 : UInt8) ∉ s.piece ∧ (0 : UInt8) ∉ s.injected) :
    (plainDeltas (decodeLoop false stops decodingStart steps)).flatten =
        cutAtStop stops (decodeLoop false stops decodingStart steps).generated ∧
      ∀ d, d = decodeLoop true stops decodingStart steps → d.generated.length ≤ d.scanned →
        ∀ stop, stopListFindFrom stops d.generated 0 = some stop →
          ∀ (think hasTools : Bool) (raw : Bytes) (calls : List Dsml.ToolCall) (finish : Finish),
            (OpenaiTagsInFront think hasTools stop d raw →
              (openaiRun think hasTools d raw calls finish).Within d.generated stop) ∧
            (AnthropicTagsInFront think hasTools stop d raw →
              (anthropicRun think hasTools d raw calls finish).Within d.generated stop) := by
  refine ⟨plainDeltas_eq stops steps hzero, ?_⟩
  rintro d rfl hscanned stop hfind think hasTools raw calls finish
  have hstopped := stopped_of_find hzero hfind hscanned
  refine ⟨?_, ?_⟩
  · intro htags
    exact openaiRun_within hstopped htags calls finish
  · intro htags
    exact anthropicRun_within hstopped htags calls finish

theorem stop_never_leaks_sample :
    (openaiRun true true
      (decodeLoop true (stopListPush .empty (str "END")) decodingStart
        [⟨str "a</th", []⟩, ⟨str "ink>bE", []⟩, ⟨str "NDc", []⟩])
      (str "a</think>b") [] .stop).Within (str "a</think>bENDc") 10 :=
  ((stop_never_leaks (stopListPush .empty (str "END"))
    [⟨str "a</th", []⟩, ⟨str "ink>bE", []⟩, ⟨str "NDc", []⟩]
    (by decide)).2 _ rfl (by decide) 10 (by decide) true true
    (str "a</think>b") [] .stop).1 ⟨by decide, Or.inl (by decide)⟩

/-- A stop that overlaps the closing tag of the thinking: the tag is found behind the
stop, and the thinking is sent up to it. -/
theorem stop_leaks_in_front_of_tag :
    ∃ (stops : StopList) (steps : List Step) (d : Decoding),
      d = decodeLoop true stops decodingStart steps ∧
      stopListFindFrom stops d.generated 0 = some 2 ∧
      OpenaiEvent.reasoning (0, 3) (str "abc") ∈
        (openaiRun true false d d.text [] .stop).sent :=
  ⟨stopListPush .empty (str "c</th"), [⟨str "abc", []⟩, ⟨str "</think>", []⟩],
    _, rfl, by decide, by decide⟩

end Ds4Studio.Stream
