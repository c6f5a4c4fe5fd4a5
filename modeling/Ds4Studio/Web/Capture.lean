import Ds4Studio.Lib.Splits
import Ds4Studio.Lib.Utf8

/-!
What tools keep of the output of a command, which comes in chunks that are decoded one by one: the
head and the tail of a long output, and the lines that a search has found.
-/

namespace Ds4Studio.Web

open Chunks List Utf16

/-! ### Head and tail -/

structure HeadTailBuffer where
  headBytes : ℕ
  tailBytes : ℕ
  head : Utf16
  tail : Utf16
  total : ℕ
  elided : ℕ

/-- `... [n bytes elided] ...`, on a line of its own -/
def elisionMarker (elided : ℕ) : Utf16 := ascii ("\n... [" ++ elided.repr ++ " bytes elided] ...\n")

namespace HeadTailBuffer

def new (headBytes tailBytes : ℕ) : HeadTailBuffer := ⟨headBytes, tailBytes, [], [], 0, 0⟩

/-- `_pushTail` -/
def pushTail (b : HeadTailBuffer) (s : Utf16) : HeadTailBuffer :=
  let tail := b.tail ++ s
  if b.tailBytes < tail.length then
    let drop := tail.length - b.tailBytes
    { b with elided := b.elided + drop, tail := tail.drop drop }
  else { b with tail := tail }

def push (b : HeadTailBuffer) (chunk : Bytes) : HeadTailBuffer :=
  let s := Utf8.text chunk
  let b := { b with total := b.total + s.length }
  if b.head.length < b.headBytes then
    let room := b.headBytes - b.head.length
    if s.length ≤ room then { b with head := b.head ++ s }
    else ({ b with head := b.head ++ s.take room }).pushTail (s.drop room)
  else b.pushTail s

def toString (b : HeadTailBuffer) : Utf16 :=
  if b.tail = [] then b.head
  else if b.elided = 0 then b.head ++ b.tail
  else b.head ++ elisionMarker b.elided ++ b.tail

/-- The buffer when the command exits. -/
def capture (headBytes tailBytes : ℕ) (chunks : List Bytes) : HeadTailBuffer :=
  chunks.foldl push (new headBytes tailBytes)

/-- `BASH_HEAD_BYTES`, `BASH_TAIL_BYTES` -/
def bash (chunks : List Bytes) : HeadTailBuffer := capture (8 * 1024) (56 * 1024) chunks

/-- The buffer that has taken in a text. -/
def holding (headBytes tailBytes : ℕ) (s : Utf16) : HeadTailBuffer where
  headBytes := headBytes
  tailBytes := tailBytes
  head := s.take headBytes
  tail := (s.drop headBytes).drop ((s.drop headBytes).length - tailBytes)
  total := s.length
  elided := (s.drop headBytes).length - tailBytes

theorem drop_last_append (rest s : Utf16) (n : ℕ) :
    rest.drop (rest.length - n) ++ s = (rest ++ s).drop (rest.length - n) :=
  (drop_append_of_le_length (Nat.sub_le _ _)).symm

variable {b : HeadTailBuffer}

theorem pushTail_of_last {rest : Utf16} (htail : b.tail = rest.drop (rest.length - b.tailBytes))
    (helided : b.elided = rest.length - b.tailBytes) (s : Utf16) :
    b.pushTail s = { b with
      tail := (rest ++ s).drop ((rest ++ s).length - b.tailBytes)
      elided := (rest ++ s).length - b.tailBytes } := by
  simp only [pushTail, htail, helided, drop_last_append, length_drop, length_append, drop_drop]
  split
  case isTrue h =>
    have hdrop : rest.length - b.tailBytes +
        (rest.length + s.length - (rest.length - b.tailBytes) - b.tailBytes) =
          rest.length + s.length - b.tailBytes := by omega
    rw [hdrop]
  case isFalse h =>
    have hsame : rest.length - b.tailBytes = rest.length + s.length - b.tailBytes := by omega
    rw [← hsame]

theorem push_of_fits {chunk : Bytes} (h : b.head.length < b.headBytes)
    (hfits : (Utf8.text chunk).length ≤ b.headBytes - b.head.length) :
    b.push chunk = { b with
      head := b.head ++ Utf8.text chunk
      total := b.total + (Utf8.text chunk).length } := by
  simp only [push, if_pos h, if_pos hfits]

theorem push_of_over {chunk : Bytes} (h : b.head.length < b.headBytes)
    (hover : ¬ (Utf8.text chunk).length ≤ b.headBytes - b.head.length) :
    b.push chunk = pushTail
      { b with
        head := b.head ++ (Utf8.text chunk).take (b.headBytes - b.head.length)
        total := b.total + (Utf8.text chunk).length }
      ((Utf8.text chunk).drop (b.headBytes - b.head.length)) := by
  simp only [push, if_pos h, if_neg hover]

theorem push_of_full (h : ¬ b.head.length < b.headBytes) (chunk : Bytes) :
    b.push chunk = pushTail { b with total := b.total + (Utf8.text chunk).length }
      (Utf8.text chunk) := by
  simp only [push, if_neg h]

variable (headBytes tailBytes : ℕ)

theorem push_holding (s : Utf16) (chunk : Bytes) :
    (holding headBytes tailBytes s).push chunk =
      holding headBytes tailBytes (s ++ Utf8.text chunk) := by
  have hhead : (holding headBytes tailBytes s).head.length = min headBytes s.length := length_take
  have hbytes : (holding headBytes tailBytes s).headBytes = headBytes := rfl
  by_cases hroom : s.length < headBytes
  · have hlen : (holding headBytes tailBytes s).head.length = s.length := by omega
    have htake : s.take headBytes = s := take_of_length_le (Nat.le_of_lt hroom)
    have hdrop : s.drop headBytes = [] := drop_eq_nil_of_le (Nat.le_of_lt hroom)
    by_cases hfits : (Utf8.text chunk).length ≤ headBytes - s.length
    · rw [push_of_fits (by omega) (by omega)]
      simp only [holding, htake, hdrop, take_append, drop_append, length_append,
        take_of_length_le hfits, drop_eq_nil_of_le hfits, nil_append]
    · rw [push_of_over (by omega) (by omega), pushTail_of_last rfl rfl]
      simp only [holding, htake, take_append, drop_append, length_append]
  · rw [push_of_full (by omega), pushTail_of_last rfl rfl]
    have hzero : headBytes - s.length = 0 := by omega
    simp only [holding, take_append, drop_append, length_append, hzero,
      take_zero, append_nil, drop_zero]

theorem foldl_push (s : Utf16) (chunks : List Bytes) :
    chunks.foldl push (holding headBytes tailBytes s) =
      holding headBytes tailBytes (s ++ chunks.flatMap Utf8.text) := by
  induction chunks generalizing s with
  | nil => rw [flatMap_nil, append_nil, foldl_nil]
  | cons chunk rest ih =>
    rw [foldl_cons, push_holding, ih, flatMap_cons, append_assoc]

theorem capture_eq (chunks : List Bytes) :
    capture headBytes tailBytes chunks =
      holding headBytes tailBytes (chunks.flatMap Utf8.text) := by
  have hnew : new headBytes tailBytes = holding headBytes tailBytes [] := by simp [new, holding]
  rw [capture, hnew, foldl_push, nil_append]

variable {headBytes tailBytes : ℕ}

theorem toString_of_fits {s : Utf16}
    (h : s.length ≤ headBytes + tailBytes) : (holding headBytes tailBytes s).toString = s := by
  have htail : (holding headBytes tailBytes s).tail = s.drop headBytes := by
    unfold holding
    rw [length_drop, show s.length - headBytes - tailBytes = 0 by omega, drop_zero]
  have helided : (holding headBytes tailBytes s).elided = 0 := by
    change (s.drop headBytes).length - tailBytes = 0
    rw [length_drop]
    omega
  have hhead : (holding headBytes tailBytes s).head = s.take headBytes := rfl
  unfold toString
  rw [htail, hhead, take_append_drop]
  split
  case isTrue hnil =>
    have hall := take_append_drop headBytes s
    rwa [hnil, append_nil] at hall
  case isFalse => rfl

theorem toString_of_over {s : Utf16}
    (h : headBytes + tailBytes < s.length) :
    (holding headBytes tailBytes s).toString =
      if tailBytes = 0 then s.take headBytes
      else s.take headBytes ++ elisionMarker (s.length - headBytes - tailBytes) ++
        s.drop (s.length - tailBytes) := by
  have htail : (holding headBytes tailBytes s).tail = s.drop (s.length - tailBytes) := by
    unfold holding
    rw [length_drop, drop_drop,
      show headBytes + (s.length - headBytes - tailBytes) = s.length - tailBytes by omega]
  have helided : (holding headBytes tailBytes s).elided = s.length - headBytes - tailBytes := by
    unfold holding
    rw [length_drop]
  have hnil : s.drop (s.length - tailBytes) = [] ↔ tailBytes = 0 := by
    rw [drop_eq_nil_iff]
    omega
  unfold toString
  rw [htail, helided, if_neg (by omega : ¬ s.length - headBytes - tailBytes = 0)]
  simp only [hnil, holding]

end HeadTailBuffer

/-- The code units of an output that neither the head nor the tail has room for. -/
def dropped {α : Type*} (headBytes tailBytes : ℕ) (l : List α) : List α :=
  (l.drop headBytes).take (l.length - headBytes - tailBytes)

/-- The bytes that the code units between head and tail were read from. -/
def droppedBytes (headBytes tailBytes : ℕ) (output : Bytes) : ℕ :=
  ((dropped headBytes tailBytes (Utf8.decodeUnits output)).map Prod.snd).sum

/-- The decoded output as a whole, or its head, the marker and its tail. -/
def wholeText (headBytes tailBytes : ℕ) (output : Bytes) : Utf16 :=
  let s := Utf8.text output
  if s.length ≤ headBytes + tailBytes then s
  else
    s.take headBytes ++ elisionMarker (droppedBytes headBytes tailBytes output) ++
      s.drop (s.length - tailBytes)

/-- The chunks give the text and the counters of their whole. -/
def Captures (headBytes tailBytes : ℕ) (chunks : List Bytes) : Prop :=
  let b := HeadTailBuffer.capture headBytes tailBytes chunks
  b.toString = wholeText headBytes tailBytes chunks.flatten ∧
    b.total = (Utf8.text chunks.flatten).length ∧
    b.elided = droppedBytes headBytes tailBytes chunks.flatten

/-- No chunk ends inside of a character; what is dropped are characters of one byte; and there is a
tail to be shown behind what is dropped. -/
structure Capturable (headBytes tailBytes : ℕ) (chunks : List Bytes) : Prop where
  apart : Apart Utf8.Cuts chunks
  single : ∀ u ∈ dropped headBytes tailBytes (Utf8.decodeUnits chunks.flatten), u.2 = 1
  shown : (Utf8.text chunks.flatten).length ≤ headBytes + tailBytes ∨ 0 < tailBytes

theorem length_text (output : Bytes) :
    (Utf8.text output).length = (Utf8.decodeUnits output).length := length_map _

theorem length_dropped {α : Type*} (headBytes tailBytes : ℕ) (l : List α) :
    (dropped headBytes tailBytes l).length = l.length - headBytes - tailBytes := by
  unfold dropped
  rw [length_take, length_drop]
  omega

theorem split_dropped {α : Type*} {l : List α}
    (h : headBytes + tailBytes ≤ l.length) :
    l = l.take headBytes ++ dropped headBytes tailBytes l ++ l.drop (l.length - tailBytes) := by
  have hmiddle : l.drop headBytes =
      dropped headBytes tailBytes l ++ l.drop (l.length - tailBytes) := by
    have hsplit := take_append_drop (l.length - headBytes - tailBytes) (l.drop headBytes)
    rw [drop_drop,
      show headBytes + (l.length - headBytes - tailBytes) = l.length - tailBytes by omega] at hsplit
    exact hsplit.symm
  rw [append_assoc, ← hmiddle, take_append_drop]

theorem length_le_sum {l : List ℕ} (h : ∀ n ∈ l, 1 ≤ n) : l.length ≤ l.sum := by
  induction l with
  | nil => exact Nat.le_refl 0
  | cons n l ih =>
    have hn := h n mem_cons_self
    have hl := ih fun m hm => h m (mem_cons_of_mem _ hm)
    rw [length_cons, sum_cons]
    omega

theorem sum_eq_length_iff {l : List ℕ} (h : ∀ n ∈ l, 1 ≤ n) :
    l.sum = l.length ↔ ∀ n ∈ l, n = 1 := by
  induction l with
  | nil => simp
  | cons n l ih =>
    have hn := h n mem_cons_self
    have hle := length_le_sum fun m hm => h m (mem_cons_of_mem _ hm)
    rw [forall_mem_cons, ← ih fun m hm => h m (mem_cons_of_mem _ hm), sum_cons, length_cons]
    omega

/-- The marker counts bytes where every code unit that was dropped is one. -/
theorem droppedBytes_eq_iff (headBytes tailBytes : ℕ) (output : Bytes) :
    droppedBytes headBytes tailBytes output =
        (Utf8.text output).length - headBytes - tailBytes ↔
      ∀ u ∈ dropped headBytes tailBytes (Utf8.decodeUnits output), u.2 = 1 := by
  have hpos : ∀ n ∈ (dropped headBytes tailBytes (Utf8.decodeUnits output)).map Prod.snd,
      1 ≤ n := by
    intro n hn
    obtain ⟨u, hu, rfl⟩ := mem_map.mp hn
    exact Utf8.decodeUnits_pos output u (mem_of_mem_drop (mem_of_mem_take hu))
  have hiff := sum_eq_length_iff hpos
  rw [length_map, length_dropped, ← length_text, forall_mem_map] at hiff
  exact hiff

theorem flatMap_text (chunks : List Bytes) :
    chunks.flatMap Utf8.text = (chunks.flatMap Utf8.decodeUnits).map Prod.fst := by
  rw [map_flatMap]
  rfl

theorem captures_of_capturable {chunks : List Bytes}
    (h : Capturable headBytes tailBytes chunks) : Captures headBytes tailBytes chunks := by
  have htext : chunks.flatMap Utf8.text = Utf8.text chunks.flatten := by
    rw [flatMap_text, (Utf8.reads_decodeUnits.flatten_eq_iff chunks).mpr h.apart]
    rfl
  have hbytes := (droppedBytes_eq_iff headBytes tailBytes chunks.flatten).mpr h.single
  unfold Captures
  rw [HeadTailBuffer.capture_eq, htext]
  refine ⟨?_, rfl, ?_⟩
  · unfold wholeText
    dsimp only
    split
    case isTrue hfits => exact HeadTailBuffer.toString_of_fits hfits
    case isFalse hover =>
      have htail : 0 < tailBytes := h.shown.resolve_left hover
      rw [HeadTailBuffer.toString_of_over (not_le.mp hover), if_neg htail.ne', hbytes]
  · unfold HeadTailBuffer.holding
    rw [hbytes, length_drop]

/-- Code units are garbled neither where they are shown nor where each that is dropped is one
byte. -/
theorem eq_of_garbled {whole parts : List (UInt16 × ℕ)}
    (h : List.Forall₂ Utf8.Garbled whole parts) (hover : headBytes + tailBytes ≤ whole.length)
    (hhead : (whole.take headBytes).map Prod.fst = (parts.take headBytes).map Prod.fst)
    (hmiddle : ∀ u ∈ dropped headBytes tailBytes whole, u.2 = 1)
    (htail : (whole.drop (whole.length - tailBytes)).map Prod.fst =
      (parts.drop (whole.length - tailBytes)).map Prod.fst) : whole = parts := by
  have hlen := h.length_eq
  have hdropped : List.Forall₂ Utf8.Garbled (dropped headBytes tailBytes whole)
      (dropped headBytes tailBytes parts) := by
    unfold dropped
    rw [hlen]
    exact forall₂_take _ (forall₂_drop _ h)
  calc whole
      = whole.take headBytes ++ dropped headBytes tailBytes whole ++
          whole.drop (whole.length - tailBytes) := split_dropped hover
    _ = parts.take headBytes ++ dropped headBytes tailBytes parts ++
          parts.drop (whole.length - tailBytes) := by
        rw [Utf8.eq_of_garbled_shown (forall₂_take headBytes h) hhead,
          Utf8.eq_of_garbled_single hdropped hmiddle,
          Utf8.eq_of_garbled_shown (forall₂_drop _ h) htail]
    _ = parts := by
        rw [hlen]
        exact (split_dropped (hlen ▸ hover)).symm

theorem capturable_of_captures {chunks : List Bytes}
    (h : Captures headBytes tailBytes chunks) : Capturable headBytes tailBytes chunks := by
  unfold Captures at h
  rw [HeadTailBuffer.capture_eq, flatMap_text] at h
  obtain ⟨htext, htotal, helided⟩ := h
  generalize hparts : chunks.flatMap Utf8.decodeUnits = parts at htext htotal helided
  have hlen : (parts.map Prod.fst).length = (Utf8.text chunks.flatten).length := htotal
  have hgarbled : List.Forall₂ Utf8.Garbled (Utf8.decodeUnits chunks.flatten) parts := by
    refine hparts ▸ (Utf8.reads_decodeUnits.flatten_grows chunks).of_length ?_
    rw [hparts, ← length_text, ← hlen, length_map]
  have hsingle : ∀ u ∈ dropped headBytes tailBytes (Utf8.decodeUnits chunks.flatten),
      u.2 = 1 := by
    rw [← droppedBytes_eq_iff, ← helided, ← hlen]
    unfold HeadTailBuffer.holding
    rw [length_drop]
  have hbytes := (droppedBytes_eq_iff headBytes tailBytes chunks.flatten).mpr hsingle
  unfold wholeText at htext
  rw [hbytes] at htext
  by_cases hfits : (Utf8.text chunks.flatten).length ≤ headBytes + tailBytes
  · rw [if_pos hfits, HeadTailBuffer.toString_of_fits (hlen ▸ hfits)] at htext
    have heq := Utf8.eq_of_garbled_shown hgarbled htext.symm
    exact ⟨(Utf8.reads_decodeUnits.flatten_eq_iff chunks).mp (hparts.trans heq.symm), hsingle,
      .inl hfits⟩
  · rw [if_neg hfits, HeadTailBuffer.toString_of_over (by omega)] at htext
    have hhead : ((parts.map Prod.fst).take headBytes).length =
        ((Utf8.text chunks.flatten).take headBytes).length := by
      rw [length_take, length_take, hlen]
    have htail : 0 < tailBytes := by
      by_contra hzero
      rw [if_pos (by omega)] at htext
      have hcount := congrArg length htext
      have hmarker : 0 < (elisionMarker
          ((Utf8.text chunks.flatten).length - headBytes - tailBytes)).length := by
        simp [elisionMarker, ascii]
      rw [length_append, length_append] at hcount
      omega
    rw [if_neg htail.ne', hlen, append_assoc, append_assoc] at htext
    obtain ⟨hfront, hback⟩ := append_inj htext hhead
    have heq := eq_of_garbled hgarbled (by rw [← length_text]; omega)
      (by simpa [Utf8.text] using hfront.symm) hsingle
      (by simpa [Utf8.text] using (append_cancel_left hback).symm)
    exact ⟨(Utf8.reads_decodeUnits.flatten_eq_iff chunks).mp (hparts.trans heq.symm), hsingle,
      .inr htail⟩

theorem captures_iff (headBytes tailBytes : ℕ) (chunks : List Bytes) :
    Captures headBytes tailBytes chunks ↔ Capturable headBytes tailBytes chunks :=
  ⟨capturable_of_captures, captures_of_capturable⟩

/-! ### Lines of a search -/

/-- `MAX_SEARCH_RESULTS` -/
def maxSearchResults : ℕ := 50

def newline : UInt16 := 0x0a

/-- The matches so far, each with the end of its line, and their number. -/
structure Found where
  output : Utf16
  count : ℕ

/-- The loop over the lines of a chunk. -/
def collectLines (maxResults : Num) : List Utf16 → Found → Found
  | [], found => found
  | line :: rest, found =>
      if trim line = [] then collectLines maxResults rest found
      else if maxResults.le (.nat found.count) then found
      else collectLines maxResults rest ⟨found.output ++ (line ++ [newline]), found.count + 1⟩

def onData (maxResults : Num) (found : Found) (chunk : Bytes) : Found :=
  collectLines maxResults ((Utf8.text chunk).splitOn newline) found

/-- What has been collected when `grep` exits. -/
def searched (maxResults : Num) (chunks : List Bytes) : Found :=
  chunks.foldl (onData maxResults) ⟨[], 0⟩

def searchContent (digits : Num → Utf16) (maxResults : Num) (found : Found) : Utf16 :=
  if trim found.output = [] then ascii "search: no results"
  else
    let suffix :=
      if maxResults.le (.nat found.count) then
        ascii "\n... (capped at " ++ digits maxResults ++ ascii " results)"
      else []
    ascii (found.count.repr ++ " result(s):\n") ++ trim found.output ++ suffix

/-- `Number(args.max_results) || MAX_SEARCH_RESULTS` -/
def resultLimit (maxResults : Num) : Num := maxResults.orElse (.nat maxSearchResults)

def toolSearch (digits : Num → Utf16) (maxResults : Num) (chunks : List Bytes) : Utf16 :=
  searchContent digits (resultLimit maxResults) (searched (resultLimit maxResults) chunks)

/-- The lines with something in them. -/
def nonblankLines (s : Utf16) : List Utf16 := (s.splitOn newline).filter fun line => trim line ≠ []

/-- The lines up to the limit, of which so many have been taken. -/
def firstLines (maxResults : Num) : ℕ → List Utf16 → List Utf16
  | _, [] => []
  | count, line :: rest =>
      if maxResults.le (.nat count) then [] else line :: firstLines maxResults (count + 1) rest

def foundOf (maxResults : Num) (lines : List Utf16) : Found where
  output := (firstLines maxResults 0 lines).flatMap fun line => line ++ [newline]
  count := (firstLines maxResults 0 lines).length

/-- The matches are the first lines of the whole output, as many of them as the limit lets through,
for every limit. -/
def Searches (digits : Num → Utf16) (chunks : List Bytes) : Prop :=
  ∀ maxResults,
    let whole := foundOf (resultLimit maxResults) (nonblankLines (Utf8.text chunks.flatten))
    searched (resultLimit maxResults) chunks = whole ∧
      toolSearch digits maxResults chunks = searchContent digits (resultLimit maxResults) whole

/-- The first bytes end inside of a character, or inside of a line with something in it. -/
def CutsLine (a b : Bytes) : Prop :=
  Utf8.Cuts a b ∨
    Splits.lastPart newline (Utf8.text a) ≠ [] ∧ Splits.firstPart newline (Utf8.text b) ≠ [] ∧
      trim (Splits.lastPart newline (Utf8.text a) ++ Splits.firstPart newline (Utf8.text b)) ≠ []

instance (a b : Bytes) : Decidable (CutsLine a b) := inferInstanceAs (Decidable (_ ∨ _))

variable {lines : List Utf16}

theorem firstLines_append_of_reached {maxResults : Num} {count : ℕ}
    (h : maxResults.le (.nat (count + (firstLines maxResults count lines).length)) = true)
    (more : List Utf16) :
    firstLines maxResults count (lines ++ more) = firstLines maxResults count lines := by
  induction lines generalizing count with
  | nil =>
    cases more with
    | nil => rfl
    | cons line more => exact if_pos h
  | cons line rest ih =>
    rw [cons_append, firstLines]
    unfold firstLines at h
    split at h
    case isTrue hle => rw [if_pos hle, firstLines, if_pos hle]
    case isFalse hnot =>
      rw [length_cons, ← Nat.add_assoc, Nat.add_right_comm] at h
      rw [ih h, firstLines, if_neg hnot]

theorem firstLines_append_of_room {maxResults : Num} {count : ℕ}
    (h : maxResults.le (.nat (count + (firstLines maxResults count lines).length)) = false)
    (line : Utf16) :
    firstLines maxResults count (lines ++ [line]) =
      firstLines maxResults count lines ++ [line] := by
  induction lines generalizing count with
  | nil => exact if_neg (by simpa [firstLines] using h)
  | cons first rest ih =>
    rw [cons_append, firstLines]
    unfold firstLines at h
    split at h
    case isTrue hle => simp [hle] at h
    case isFalse hnot =>
      rw [length_cons, ← Nat.add_assoc, Nat.add_right_comm] at h
      rw [if_neg hnot, ih h, firstLines, if_neg hnot, cons_append]

theorem collectLines_foundOf (maxResults : Num) (all lines : List Utf16) :
    collectLines maxResults lines (foundOf maxResults all) =
      foundOf maxResults (all ++ lines.filter fun line => trim line ≠ []) := by
  induction lines generalizing all with
  | nil => rw [filter_nil, append_nil, collectLines]
  | cons line rest ih =>
    rw [collectLines]
    split
    case isTrue hblank =>
      rw [ih, filter_cons_of_neg (by simpa using hblank)]
    case isFalse hline =>
      rw [filter_cons_of_pos (by simpa using hline)]
      cases hle : maxResults.le (.nat (foundOf maxResults all).count) with
      | true =>
        have hfull : maxResults.le (.nat (0 + (firstLines maxResults 0 all).length)) = true := by
          simpa [foundOf] using hle
        rw [if_pos rfl, foundOf, foundOf, firstLines_append_of_reached hfull]
      | false =>
        have hfree : maxResults.le (.nat (0 + (firstLines maxResults 0 all).length)) = false := by
          simpa [foundOf] using hle
        have hroom := firstLines_append_of_room hfree line
        have hnext : foundOf maxResults (all ++ [line]) =
            ⟨(foundOf maxResults all).output ++ (line ++ [newline]),
              (foundOf maxResults all).count + 1⟩ := by
          simp only [foundOf, hroom, flatMap_append, flatMap_singleton,
            length_append, length_singleton]
        rw [if_neg Bool.false_ne_true, ← hnext, ih, append_assoc, singleton_append]

theorem searched_eq (maxResults : Num) (chunks : List Bytes) :
    searched maxResults chunks =
      foundOf maxResults (chunks.flatMap fun chunk => nonblankLines (Utf8.text chunk)) := by
  have hfold : ∀ all, chunks.foldl (onData maxResults) (foundOf maxResults all) =
      foundOf maxResults
        (all ++ chunks.flatMap fun chunk => nonblankLines (Utf8.text chunk)) := by
    induction chunks with
    | nil => exact fun all => by rw [flatMap_nil, append_nil, foldl_nil]
    | cons chunk rest ih =>
      intro all
      rw [foldl_cons, onData, collectLines_foundOf, ih, append_assoc]
      rfl
  exact hfold []

/-! ### Lines that are cut -/

/-- A line that is left of another: the line itself, or a shorter one. -/
def Shorter (line part : Utf16) : Prop := line = part ∨ part.length < line.length

instance : IsPartialOrder Utf16 Shorter where
  refl _ := .inl rfl
  trans line part rest h h' := by
    rcases h with rfl | h
    · exact h'
    · rcases h' with rfl | h'
      · exact .inr h
      · exact .inr (h'.trans h)
  antisymm line part h h' := by
    rcases h with rfl | h
    · rfl
    · rcases h' with rfl | h'
      · rfl
      · exact absurd (h.trans h') (Nat.lt_irrefl _)

def nonblank (lines : List Utf16) : List Utf16 := lines.filter fun line => trim line ≠ []

theorem nonblank_append (lines lines' : List Utf16) :
    nonblank (lines ++ lines') = nonblank lines ++ nonblank lines' := filter_append ..

theorem nonblank_of_blank {line : Utf16} (h : trim line = []) : nonblank [line] = [] := by
  simp [nonblank, h]

theorem nonblank_of_ne {line : Utf16} (h : trim line ≠ []) : nonblank [line] = [line] := by
  simp [nonblank, h]

theorem length_nonblank_singleton (line : Utf16) : (nonblank [line]).length ≤ 1 :=
  length_filter_le ..

theorem nonblankLines_append (s t : Utf16) :
    nonblankLines (s ++ t) = nonblank (s.splitOn newline).dropLast ++
      (nonblank [Splits.lastPart newline s ++ Splits.firstPart newline t] ++
        nonblank (t.splitOn newline).tail) := by
  rw [← nonblank_append, ← nonblank_append, singleton_append, ← Splits.splitOn_append]
  rfl

theorem nonblankLines_eq_concat (s : Utf16) :
    nonblankLines s =
      nonblank (s.splitOn newline).dropLast ++ nonblank [Splits.lastPart newline s] := by
  rw [← nonblank_append, ← Splits.splitOn_eq_concat]
  rfl

theorem nonblankLines_eq_cons (s : Utf16) :
    nonblankLines s =
      nonblank [Splits.firstPart newline s] ++ nonblank (s.splitOn newline).tail := by
  rw [← nonblank_append, singleton_append, ← Splits.splitOn_eq_cons]
  rfl

theorem trim_append_eq_nil_iff {left right : Utf16} :
    trim (left ++ right) = [] ↔ trim left = [] ∧ trim right = [] := by
  simp only [trim_eq_nil_iff, forall_mem_append]

/-- A line that is cut gives two lines, or one that is shorter; blank ones count for nothing. -/
theorem nonblank_cut (left right : Utf16) :
    Grows Shorter (nonblank [left ++ right]) (nonblank [left] ++ nonblank [right]) ∧
      (nonblank [left ++ right] = nonblank [left] ++ nonblank [right] ↔
        ¬ (left ≠ [] ∧ right ≠ [] ∧ trim (left ++ right) ≠ [])) := by
  by_cases hleft : left = []
  · subst hleft
    rw [nonblank_of_blank (show trim [] = [] from rfl)]
    exact ⟨Grows.refl _, by simp⟩
  by_cases hright : right = []
  · subst hright
    rw [append_nil, nonblank_of_blank (show trim [] = [] from rfl), append_nil]
    exact ⟨Grows.refl _, by simp⟩
  have hpos := length_pos_of_ne_nil hleft
  have hpos' := length_pos_of_ne_nil hright
  by_cases hblank : trim (left ++ right) = []
  · obtain ⟨hl, hr⟩ := trim_append_eq_nil_iff.mp hblank
    rw [nonblank_of_blank hblank, nonblank_of_blank hl, nonblank_of_blank hr]
    exact ⟨Grows.refl _, by simp [hblank]⟩
  have hcut : ¬ ¬ (left ≠ [] ∧ right ≠ [] ∧ trim (left ++ right) ≠ []) :=
    not_not.mpr ⟨hleft, hright, hblank⟩
  rw [nonblank_of_ne hblank]
  have hshort : ∀ part : Utf16, part.length < (left ++ right).length →
      Grows Shorter [left ++ right] [part] ∧ ([left ++ right] = [part] ↔
        ¬ (left ≠ [] ∧ right ≠ [] ∧ trim (left ++ right) ≠ [])) := by
    intro part hpart
    refine ⟨.inr (.cons (.inr hpart) .nil), iff_of_false (fun heq => ?_) hcut⟩
    rw [(cons.inj heq).1] at hpart
    exact Nat.lt_irrefl _ hpart
  by_cases hl : trim left = []
  · have hr : trim right ≠ [] := fun hr => hblank (trim_append_eq_nil_iff.mpr ⟨hl, hr⟩)
    rw [nonblank_of_blank hl, nonblank_of_ne hr]
    exact hshort right (by rw [length_append]; omega)
  by_cases hr : trim right = []
  · rw [nonblank_of_ne hl, nonblank_of_blank hr]
    exact hshort left (by rw [length_append]; omega)
  rw [nonblank_of_ne hl, nonblank_of_ne hr]
  exact ⟨.inl (by simp), iff_of_false (by simp) hcut⟩

theorem splitOn_of_ge {s : Utf16} (h : ∀ u ∈ s, 0x80 ≤ u.toNat) : s.splitOn newline = [s] :=
  splitOn_eq_singleton fun hmem => absurd (h _ hmem) (by decide)

theorem trim_ne_of_mem {s : Utf16} (h : (0xfffd : UInt16) ∈ s) : trim s ≠ [] := fun hnil =>
  absurd (trim_eq_nil_iff.mp hnil _ h) (by decide)

/-- Both halves of a character that is cut stand in lines of their own. -/
theorem length_lt_of_cuts {a b : Bytes} (h : Utf8.Cuts a b) :
    (nonblankLines (Utf8.text (a ++ b))).length <
      (nonblankLines (Utf8.text a) ++ nonblankLines (Utf8.text b)).length := by
  obtain ⟨front, own, more, behind, hwhole, -, hge, hleft, hright⟩ := Utf8.text_of_cuts h
  have hlast : ([0xfffd] : Utf16).splitOn newline = [[0xfffd]] := by decide
  have hfirst : (replicate (more + 1) (0xfffd : UInt16)).splitOn newline =
      [replicate (more + 1) 0xfffd] := by
    refine splitOn_of_ge fun u hu => ?_
    rw [(mem_replicate.mp hu).2]
    decide
  obtain ⟨hinner, hend⟩ := Splits.splitOn_concat_parts newline (l := front) (splitOn_of_ge hge)
  obtain ⟨hinner', hend'⟩ := Splits.splitOn_concat_parts newline (l := front) hlast
  obtain ⟨hhead, htail⟩ := Splits.splitOn_cons_parts newline (l := behind) hfirst
  have hmem : (0xfffd : UInt16) ∈
      replicate (more + 1) 0xfffd ++ Splits.firstPart newline behind :=
    mem_append_left _ (mem_replicate.mpr ⟨Nat.succ_ne_zero more, rfl⟩)
  rw [hwhole, hleft, hright, nonblankLines_append, hinner, nonblankLines_eq_concat, hinner', hend',
    nonblankLines_eq_cons, hhead, htail,
    nonblank_of_ne (trim_ne_of_mem (mem_append_right _ mem_cons_self)),
    nonblank_of_ne (trim_ne_of_mem hmem)]
  have hone := length_nonblank_singleton
    (Splits.lastPart newline (front ++ own) ++ Splits.firstPart newline behind)
  simp only [length_append, length_singleton]
  omega

theorem text_append {a b : Bytes} (h : ¬ Utf8.Cuts a b) :
    Utf8.text (a ++ b) = Utf8.text a ++ Utf8.text b := by
  unfold Utf8.text
  rw [Utf8.decodeUnits_append h, map_append]

theorem nonblankLines_parts {a b : Bytes} (h : ¬ Utf8.Cuts a b) :
    ∃ front left right back,
      nonblankLines (Utf8.text (a ++ b)) = front ++ (nonblank [left ++ right] ++ back) ∧
        nonblankLines (Utf8.text a) ++ nonblankLines (Utf8.text b) =
          front ++ ((nonblank [left] ++ nonblank [right]) ++ back) ∧
        (CutsLine a b ↔ left ≠ [] ∧ right ≠ [] ∧ trim (left ++ right) ≠ []) := by
  refine ⟨nonblank ((Utf8.text a).splitOn newline).dropLast, Splits.lastPart newline (Utf8.text a),
    Splits.firstPart newline (Utf8.text b), nonblank ((Utf8.text b).splitOn newline).tail, ?_, ?_,
    or_iff_right h⟩
  · rw [text_append h, nonblankLines_append]
  · rw [nonblankLines_eq_concat (Utf8.text a), nonblankLines_eq_cons (Utf8.text b)]
    simp only [append_assoc]

theorem reads_nonblankLines :
    Reads Shorter CutsLine fun output => nonblankLines (Utf8.text output) where
  nil := by decide
  grows a b := by
    by_cases hcuts : Utf8.Cuts a b
    · exact .inl (length_lt_of_cuts hcuts)
    · obtain ⟨front, left, right, back, hwhole, hparts, -⟩ := nonblankLines_parts hcuts
      rw [hwhole, hparts]
      exact ((nonblank_cut left right).1.append_right back).append_left front
  eq_iff a b := by
    by_cases hcuts : Utf8.Cuts a b
    · refine iff_of_false (fun heq => ?_) (not_not.mpr (.inl hcuts))
      exact (length_lt_of_cuts hcuts).ne (congrArg length heq)
    · obtain ⟨front, left, right, back, hwhole, hparts, hline⟩ := nonblankLines_parts hcuts
      rw [hwhole, hparts, append_right_inj, append_left_inj, hline]
      exact (nonblank_cut left right).2

theorem firstLines_of_unlimited (count : ℕ) (lines : List Utf16) :
    firstLines .posInf count lines = lines := by
  induction lines generalizing count with
  | nil => rfl
  | cons line rest ih => rw [firstLines, if_neg (by simp [Num.le, Num.nat]), ih]

theorem newline_not_mem (h : ∀ line ∈ lines, ∃ s : Utf16, line ∈ nonblankLines s) :
    ∀ line ∈ lines, newline ∉ line := by
  intro line hline
  obtain ⟨s, hs⟩ := h line hline
  exact Splits.not_mem_of_mem_splitOn newline s line (mem_of_mem_filter hs)

theorem searches_iff (digits : Num → Utf16) (chunks : List Bytes) :
    Searches digits chunks ↔ Apart CutsLine chunks := by
  rw [← reads_nonblankLines.flatten_eq_iff]
  constructor
  · intro h
    have hall := (h .posInf).1
    rw [show resultLimit .posInf = .posInf from rfl, searched_eq] at hall
    have houtput := congrArg Found.output hall
    simp only [foundOf, firstLines_of_unlimited] at houtput
    refine Splits.eq_of_flatMap_eq (newline_not_mem fun line hline => ?_)
      (newline_not_mem fun line hline => ⟨_, hline⟩) houtput
    obtain ⟨chunk, -, hchunk⟩ := mem_flatMap.mp hline
    exact ⟨_, hchunk⟩
  · intro h maxResults
    have hsearched : searched (resultLimit maxResults) chunks =
        foundOf (resultLimit maxResults) (nonblankLines (Utf8.text chunks.flatten)) := by
      rw [searched_eq, h]
    exact ⟨hsearched, congrArg (searchContent digits (resultLimit maxResults)) hsearched⟩

/-- What the tools keep of an output is what its whole gives just where no chunk ends inside of a
character, what is dropped are characters of one byte in front of a tail, and, for a search, no
chunk ends inside of a line. -/
theorem capture_exact (headBytes tailBytes : ℕ) (digits : Num → Utf16) (chunks : List Bytes) :
    (Captures headBytes tailBytes chunks ↔ Capturable headBytes tailBytes chunks) ∧
      (Searches digits chunks ↔ Apart CutsLine chunks) :=
  ⟨captures_iff headBytes tailBytes chunks, searches_iff digits chunks⟩

/-- A character of two bytes, which come in one chunk or in two. -/
theorem cut_character :
    let parts : List Bytes := [[0xc3], [0xa9]]
    let whole : List Bytes := [[0xc3, 0xa9]]
    parts.flatten = whole.flatten ∧
      (HeadTailBuffer.bash parts).toString = [0xfffd, 0xfffd] ∧
      (HeadTailBuffer.bash whole).toString = [0xe9] ∧
      (searched (resultLimit .nan) parts).count = 2 ∧
      (searched (resultLimit .nan) whole).count = 1 := by
  decide

end Ds4Studio.Web
