import Ds4Studio.Files.Edit

/-!
The lines of a text. A line ends with a line feed, a carriage return or both; the spans that the
code works with are the positions of these lines.
-/

namespace Ds4Studio.Files

open Bytes List

structure Line where
  content : Bytes
  ending : Bytes

def Line.bytes (l : Line) : Bytes := l.content ++ l.ending

/-- The end of a line that is followed by the rest of the text. -/
inductive LineBreak (rest : Bytes) : Bytes → Prop
  | feed : LineBreak rest [0x0a]
  | both : LineBreak rest [0x0d, 0x0a]
  | carriage (h : rest.head? ≠ some 0x0a) : LineBreak rest [0x0d]

/-- A text is made of lines; only the last one may have no end. -/
inductive LinesOf : Bytes → List Line → Prop
  | nil : LinesOf [] []
  | last {content : Bytes} (hne : content ≠ []) (hfree : ∀ c ∈ content, isBreak c = false) :
      LinesOf content [⟨content, []⟩]
  | cons {content ending rest : Bytes} {lines : List Line}
      (hfree : ∀ c ∈ content, isBreak c = false) (hbreak : LineBreak rest ending)
      (h : LinesOf rest lines) :
      LinesOf (content ++ (ending ++ rest)) (⟨content, ending⟩ :: lines)

theorem LineBreak.ne_nil {rest ending : Bytes} (h : LineBreak rest ending) : ending ≠ [] := by
  cases h <;> nofun

variable {lines : List Line} {data : Bytes}

theorem LinesOf.flatten (h : LinesOf data lines) : lines.flatMap Line.bytes = data := by
  induction h with
  | nil => rfl
  | last => simp [Line.bytes]
  | cons hfree hbreak h ih => simp [Line.bytes, ih]

theorem LinesOf.length_le (h : LinesOf data lines) : lines.length ≤ data.length := by
  induction h with
  | nil => exact Nat.le_refl 0
  | last hne => exact length_pos_of_ne_nil hne
  | cons hfree hbreak h ih =>
    have hpos := length_pos_of_ne_nil hbreak.ne_nil
    simp only [length_cons, length_append]
    omega

/-! ### Positions -/

/-- The spans of lines that start at a position. -/
def spansAt : ℕ → List Line → List LineSpan
  | _, [] => []
  | start, l :: rest =>
      ⟨start, start + l.content.length, start + l.bytes.length⟩ ::
        spansAt (start + l.bytes.length) rest

theorem splitLinesFrom_content {content : Bytes} (hfree : ∀ c ∈ content, isBreak c = false)
    (start pos : ℕ) (rest : Bytes) :
    splitLinesFrom start pos (content ++ rest) =
      splitLinesFrom start (pos + content.length) rest := by
  induction content generalizing pos with
  | nil => rfl
  | cons c content ih =>
    obtain ⟨hc, hrest⟩ := forall_mem_cons.mp hfree
    have hbreak : ¬ (c = 0x0a ∨ c = 0x0d) := by simpa [isBreak] using hc
    rw [cons_append, splitLinesFrom]
    · rw [if_neg hbreak, ih hrest, length_cons]
      congr 1
      omega
    · exact fun _ hcarriage => absurd (.inr hcarriage) hbreak

theorem splitLinesFrom_eq (h : LinesOf data lines) (start : ℕ) :
    splitLinesFrom start start data = spansAt start lines := by
  induction h generalizing start with
  | nil => simp [splitLinesFrom, spansAt]
  | @last content hne hfree =>
    have hpos := length_pos_of_ne_nil hne
    have hcontent := splitLinesFrom_content hfree start start []
    rw [append_nil] at hcontent
    rw [hcontent, splitLinesFrom, if_pos (by omega)]
    simp [spansAt, Line.bytes]
  | @cons content ending rest lines hfree hbreak h ih =>
    rw [splitLinesFrom_content hfree]
    cases hbreak with
    | feed =>
      rw [singleton_append, splitLinesFrom, ih]
      · simp [spansAt, Line.bytes, Nat.add_assoc]
      · nofun
    | both =>
      change splitLinesFrom start (start + content.length) (0x0d :: 0x0a :: rest) = _
      rw [splitLinesFrom, ih]
      simp [spansAt, Line.bytes, Nat.add_assoc]
    | carriage hhead =>
      rw [singleton_append, splitLinesFrom, ih]
      · simp [spansAt, Line.bytes, Nat.add_assoc]
      · rintro tail - rfl
        exact hhead rfl

theorem splitLines_eq (h : LinesOf data lines) : splitLines data = spansAt 0 lines :=
  splitLinesFrom_eq h 0

@[simp]
theorem length_spansAt (start : ℕ) (lines : List Line) :
    (spansAt start lines).length = lines.length := by
  induction lines generalizing start with
  | nil => rfl
  | cons l rest ih => simp [spansAt, ih]

/-- The bytes of some lines. -/
def lineBytes (lines : List Line) : Bytes := lines.flatMap Line.bytes

/-- Where a line starts. -/
def offset (lines : List Line) (i : ℕ) : ℕ := (lineBytes (lines.take i)).length

theorem spansAt_getD {i : ℕ} {l : Line} (hl : lines[i]? = some l) (start : ℕ) (d : LineSpan) :
    (spansAt start lines).getD i d = ⟨start + offset lines i,
      start + offset lines i + l.content.length, start + offset lines (i + 1)⟩ := by
  induction lines generalizing start i with
  | nil => simp at hl
  | cons m rest ih =>
    cases i with
    | zero =>
      obtain rfl : m = l := by simpa using hl
      simp [spansAt, offset, lineBytes]
    | succ i =>
      have hrest := ih (by simpa using hl) (start + m.bytes.length)
      simp only [spansAt, getD_cons_succ, hrest, offset, lineBytes, take_succ_cons,
        flatMap_cons, length_append]
      simp [Nat.add_assoc]

theorem slice_append (a b c : Bytes) : slice (a ++ (b ++ c)) a.length (a.length + b.length) = b := by
  simp [slice]

theorem slice_lines (h : LinesOf data lines) {i j : ℕ} (hij : i ≤ j) :
    slice data (offset lines i) (offset lines j) = lineBytes ((lines.take j).drop i) := by
  have htake : (lines.take j).take i = lines.take i := by rw [take_take, Nat.min_eq_left hij]
  have hfront : lineBytes (lines.take i) ++ lineBytes ((lines.take j).drop i) =
      lineBytes (lines.take j) := by
    unfold lineBytes
    rw [← flatMap_append, ← htake, take_append_drop]
  have hdata : data = lineBytes (lines.take i) ++
      (lineBytes ((lines.take j).drop i) ++ lineBytes (lines.drop j)) := by
    rw [← append_assoc, hfront]
    unfold lineBytes
    rw [← flatMap_append, take_append_drop, h.flatten]
  have hlength : offset lines j =
      (lineBytes (lines.take i)).length + (lineBytes ((lines.take j).drop i)).length := by
    rw [← length_append, hfront]
    rfl
  rw [hlength, hdata]
  exact slice_append _ _ _

theorem slice_content (h : LinesOf data lines) {i : ℕ} {l : Line} (hl : lines[i]? = some l) :
    slice data (offset lines i) (offset lines i + l.content.length) = l.content := by
  have hdrop : lines.drop i = l :: lines.drop (i + 1) := by
    obtain ⟨hi, rfl⟩ := List.getElem?_eq_some_iff.mp hl
    exact drop_eq_getElem_cons hi
  have hdata : data = lineBytes (lines.take i) ++
      (l.content ++ (l.ending ++ lineBytes (lines.drop (i + 1)))) := by
    have hflat := h.flatten
    rw [← take_append_drop i lines, hdrop] at hflat
    rw [← hflat]
    simp [lineBytes, Line.bytes]
  rw [hdata]
  exact slice_append _ _ _

end Ds4Studio.Files
