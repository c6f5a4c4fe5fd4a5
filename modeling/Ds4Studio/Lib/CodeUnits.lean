import Ds4Studio.Lib.Doubles
import Ds4Studio.Lib.Search
import Mathlib.Data.List.TakeWhile

/-!
Strings of 16-bit code units, as a language has them whose strings may hold halves of surrogate
pairs: what is left of them in UTF-8, splitting, replacing, and the number that a text stands for.
-/

namespace Ds4Studio

open List

abbrev Utf16 := List UInt16

namespace Utf16

def ascii (s : String) : Utf16 := s.toList.map fun c => c.toNat.toUInt16

/-! ### Surrogates -/

def isHigh (u : UInt16) : Bool := 0xd800 ≤ u && u ≤ 0xdbff

def isLow (u : UInt16) : Bool := 0xdc00 ≤ u && u ≤ 0xdfff

/-- A half of a surrogate pair that stands alone becomes U+FFFD. -/
def alone (u : UInt16) : UInt16 := if isHigh u || isLow u then 0xfffd else u

/-- What is read back after a text has been written as UTF-8. -/
def toWellFormed : Utf16 → Utf16
  | [] => []
  | [u] => [alone u]
  | u :: v :: rest =>
      if isHigh u && isLow v then u :: v :: toWellFormed rest
      else alone u :: toWellFormed (v :: rest)

def WellFormed (text : Utf16) : Prop := toWellFormed text = text

theorem alone_eq (u : UInt16) : alone u = u ∨ u ≠ 0xfffd ∧ alone u = 0xfffd := by
  unfold alone
  split
  case isTrue h => exact .inr ⟨by rintro rfl; exact absurd h (by decide), rfl⟩
  case isFalse => exact .inl rfl

theorem count_cons_le (u : UInt16) {rest formed : Utf16}
    (h : rest.count 0xfffd ≤ formed.count 0xfffd) :
    (u :: rest).count 0xfffd ≤ (alone u :: formed).count 0xfffd := by
  rcases alone_eq u with hu | ⟨hne, hu⟩
  · rw [hu, count_cons, count_cons]
    omega
  · rw [hu, count_cons_of_ne hne, count_cons_self]
    omega

theorem count_le_toWellFormed (text : Utf16) :
    text.count 0xfffd ≤ (toWellFormed text).count 0xfffd := by
  fun_induction toWellFormed text with
  | case1 => exact Nat.le_refl _
  | case2 u => exact count_cons_le u (Nat.le_refl _)
  | case3 u v rest _ ih =>
    rw [count_cons, count_cons, count_cons, count_cons]
    omega
  | case4 u v rest _ ih => exact count_cons_le u ih

theorem alone_eq_of_count {u : UInt16} {rest formed : Utf16}
    (h : rest.count 0xfffd ≤ formed.count 0xfffd)
    (hcount : (alone u :: formed).count 0xfffd ≤ (u :: rest).count 0xfffd) :
    alone u = u ∧ formed.count 0xfffd ≤ rest.count 0xfffd := by
  rcases alone_eq u with hu | ⟨hne, hu⟩
  · rw [hu, count_cons, count_cons] at hcount
    exact ⟨hu, by omega⟩
  · rw [hu, count_cons_of_ne hne, count_cons_self] at hcount
    omega

theorem wellFormed_of_count {text : Utf16}
    (h : (toWellFormed text).count 0xfffd ≤ text.count 0xfffd) : WellFormed text := by
  unfold WellFormed
  fun_induction toWellFormed text with
  | case1 => rfl
  | case2 u => rw [(alone_eq_of_count (Nat.le_refl _) h).1]
  | case3 u v rest _ ih =>
    rw [count_cons, count_cons, count_cons, count_cons] at h
    rw [ih (by omega)]
  | case4 u v rest _ ih =>
    obtain ⟨hu, hrest⟩ := alone_eq_of_count (count_le_toWellFormed (v :: rest)) h
    rw [hu, ih hrest]

/-! ### Splitting and replacing -/

/-- The parts of a text between the occurrences of a separator, with at most as many cuts as
given. -/
def splitFrom (separator : Utf16) : ℕ → Utf16 → List Utf16
  | 0, text => [text]
  | cuts + 1, text =>
      match Search.cut separator text with
      | none => [text]
      | some (before, after) => before :: splitFrom separator cuts after

/-- `text.split(separator)` -/
def split (separator text : Utf16) : List Utf16 :=
  if separator = [] then text.map fun u => [u] else splitFrom separator text.length text

/-- `GetSubstitution` without groups: `$$`, `$&`, the text in front and the text behind. -/
def getSubstitution (matched before after : Utf16) : Utf16 → Utf16
  | 0x24 :: 0x24 :: rest => 0x24 :: getSubstitution matched before after rest
  | 0x24 :: 0x26 :: rest => matched ++ getSubstitution matched before after rest
  | 0x24 :: 0x60 :: rest => before ++ getSubstitution matched before after rest
  | 0x24 :: 0x27 :: rest => after ++ getSubstitution matched before after rest
  | u :: rest => u :: getSubstitution matched before after rest
  | [] => []

/-- `text.replace(old, new)` -/
def replace (old new text : Utf16) : Utf16 :=
  match Search.cut old text with
  | none => text
  | some (before, after) => before ++ getSubstitution old before after new ++ after

theorem length_splitFrom_pos (separator text : Utf16) (cuts : ℕ) :
    0 < (splitFrom separator cuts text).length := by
  fun_cases splitFrom separator cuts text <;> simp

theorem splitFrom_of_cut_none {separator text : Utf16} (h : Search.cut separator text = none)
    (cuts : ℕ) : splitFrom separator cuts text = [text] := by
  cases cuts with
  | zero => rfl
  | succ cuts => simp only [splitFrom, h]

variable {separator text before after : Utf16}

theorem splitFrom_of_cut_some (h : Search.cut separator text = some (before, after)) (cuts : ℕ) :
    splitFrom separator (cuts + 1) text = before :: splitFrom separator cuts after := by
  simp only [splitFrom, h]

theorem length_of_cut (h : Search.cut separator text = some (before, after)) :
    text.length = before.length + separator.length + after.length := by
  rw [(Search.cut_eq_some_iff.mp h).2]
  simp only [length_append]

theorem length_split_of_cut_none {separator text : Utf16} (hne : separator ≠ [])
    (h : Search.cut separator text = none) : (split separator text).length = 1 := by
  unfold split
  rw [if_neg hne, splitFrom_of_cut_none h]
  rfl

theorem split_of_cut_some (hne : separator ≠ [])
    (h : Search.cut separator text = some (before, after)) :
    split separator text = before :: splitFrom separator (text.length - 1) after := by
  have hpos := length_pos_of_ne_nil hne
  have hlen := length_of_cut h
  obtain ⟨cuts, hcuts⟩ : ∃ cuts, text.length = cuts + 1 := ⟨text.length - 1, by omega⟩
  unfold split
  rw [if_neg hne, hcuts, splitFrom_of_cut_some h, Nat.add_sub_cancel]

theorem length_split_of_cut_once (hne : separator ≠ [])
    (h : Search.cut separator text = some (before, after))
    (hagain : Search.cut separator after = none) : (split separator text).length = 2 := by
  rw [split_of_cut_some hne h, splitFrom_of_cut_none hagain]
  rfl

theorem length_split_of_cut_twice {more : Utf16 × Utf16} (hne : separator ≠ [])
    (h : Search.cut separator text = some (before, after))
    (hagain : Search.cut separator after = some more) : 3 ≤ (split separator text).length := by
  obtain ⟨middle, behind⟩ := more
  have hpos := length_pos_of_ne_nil hne
  have hlen := length_of_cut h
  have hlen' := length_of_cut hagain
  obtain ⟨cuts, hcuts⟩ : ∃ cuts, text.length - 1 = cuts + 1 := ⟨text.length - 2, by omega⟩
  rw [split_of_cut_some hne h, hcuts, splitFrom_of_cut_some hagain, length_cons, length_cons]
  have hrest := length_splitFrom_pos separator behind cuts
  omega

theorem count_le_getSubstitution (matched before after new : Utf16) :
    new.count 0xfffd ≤ (getSubstitution matched before after new).count 0xfffd := by
  fun_induction getSubstitution matched before after new with
  | case1 rest ih => simpa using ih
  | case2 rest ih | case3 rest ih | case4 rest ih =>
    simp
    omega
  | case5 u rest _ _ _ _ ih =>
    rw [count_cons, count_cons]
    omega
  | case6 => exact Nat.le_refl _

/-- The replacement is written as it stands exactly if it stands for itself and leaves no half of a
pair: whatever a pattern puts in, the count of U+FFFD grows where a half is lost. -/
theorem replaced_eq_iff {matched before after new : Utf16} :
    toWellFormed (before ++ getSubstitution matched before after new ++ after) =
        before ++ new ++ after ↔
      getSubstitution matched before after new = new ∧ WellFormed (before ++ new ++ after) := by
  constructor
  · intro h
    have hgrow := count_le_getSubstitution matched before after new
    have hformed : WellFormed (before ++ getSubstitution matched before after new ++ after) := by
      apply wellFormed_of_count
      rw [h]
      simp only [count_append]
      omega
    rw [hformed] at h
    have hnew : getSubstitution matched before after new = new := by simpa using h
    rw [hnew] at hformed
    exact ⟨hnew, hformed⟩
  · rintro ⟨hnew, hformed⟩
    rw [hnew]
    exact hformed

/-! ### Numbers -/

/-- White space and line terminators -/
def isSpace (u : UInt16) : Bool :=
  (0x09 ≤ u && u ≤ 0x0d) || (0x2000 ≤ u && u ≤ 0x200a) ||
    u ∈ [0x20, 0xa0, 0x1680, 0x2028, 0x2029, 0x202f, 0x205f, 0x3000, 0xfeff]

def trim (text : Utf16) : Utf16 := ((text.dropWhile isSpace).reverse.dropWhile isSpace).reverse

theorem trim_eq_nil_iff {text : Utf16} : trim text = [] ↔ ∀ u ∈ text, isSpace u = true := by
  have hdrop : ∀ l : Utf16, l.dropWhile isSpace = [] ↔ ∀ u ∈ l, isSpace u = true :=
    fun _ => dropWhile_eq_nil_iff
  unfold trim
  rw [reverse_eq_nil_iff, hdrop, ← hdrop text]
  constructor
  · intro h
    by_contra hne
    refine absurd (head_dropWhile_not isSpace hne) ?_
    rw [h _ (mem_reverse.mpr (head_mem hne))]
    exact Bool.noConfusion
  · intro h u hu
    rw [h] at hu
    exact absurd hu (by simp)

def digit (u : UInt16) : ℕ :=
  if 0x30 ≤ u && u ≤ 0x39 then u.toNat - 0x30
  else if 0x61 ≤ u && u ≤ 0x66 then u.toNat - 0x61 + 10
  else if 0x41 ≤ u && u ≤ 0x46 then u.toNat - 0x41 + 10
  else 16

/-- The value of digits, of which there may be none. -/
def digits (base : ℕ) (text : Utf16) : Option ℕ :=
  if text.all fun u => digit u < base then
    some (text.foldl (fun n u => n * base + digit u) 0)
  else none

/-- `SignedInteger`, behind an exponent's letter -/
def exponent : Utf16 → Option ℤ
  | [] | [0x2b] | [0x2d] => none
  | 0x2b :: text => (digits 10 text).map Int.ofNat
  | 0x2d :: text => (digits 10 text).map fun n => -n
  | text => (digits 10 text).map Int.ofNat

/-- `StrUnsignedDecimalLiteral` -/
def unsigned (d : Doubles) (text : Utf16) : Num :=
  if text = ascii "Infinity" then .posInf
  else
    let (mantissa, power) := text.span fun u => u ≠ 0x65 && u ≠ 0x45
    let (whole, part) := mantissa.span (· ≠ 0x2e)
    let fraction := part.tail
    match digits 10 (whole ++ fraction),
      if power = [] then some 0 else exponent power.tail with
    | some m, some e =>
        if whole ++ fraction = [] then .nan
        else d.round (m * (10 : ℚ) ^ (e - fraction.length))
    | _, _ => .nan

def nonDecimal (d : Doubles) (base : ℕ) (text : Utf16) : Num :=
  match digits base text with
  | some n => if text = [] then .nan else d.round n
  | none => .nan

/-- `Number(text)`; zeros are positive. -/
def toNumber (d : Doubles) (text : Utf16) : Num :=
  match trim text with
  | [] => .nat 0
  | 0x30 :: 0x78 :: rest | 0x30 :: 0x58 :: rest => nonDecimal d 16 rest
  | 0x30 :: 0x6f :: rest | 0x30 :: 0x4f :: rest => nonDecimal d 8 rest
  | 0x30 :: 0x62 :: rest | 0x30 :: 0x42 :: rest => nonDecimal d 2 rest
  | 0x2b :: rest => unsigned d rest
  | 0x2d :: rest => (unsigned d rest).neg
  | rest => unsigned d rest

end Utf16

end Ds4Studio
