import Mathlib.Data.List.PeriodicityLemma
import Mathlib.Data.List.TakeWhile
import Mathlib.Tactic.Ring

/-!
Lists that end in copies of a block. Reading from the end, the last letters are copies of a block
of a given length where each of them is the letter that many places further back.
-/

namespace Ds4Studio.Repetition

open List

variable {α : Type*}

/-- The list ends in copies of a block of this length. -/
def Repeats (copies period : ℕ) (l : List α) : Prop :=
  ∃ block : List α, block.length = period ∧ (replicate copies block).flatten <:+ l

theorem length_copies (copies : ℕ) (block : List α) :
    (replicate copies block).flatten.length = copies * block.length := by
  simp [length_flatten]

theorem eq_copies_of_hasPeriod {copies period : ℕ} {w : List α} (h : w.HasPeriod period)
    (hlength : w.length = copies * period) : w = (replicate copies (w.take period)).flatten := by
  induction copies generalizing w with
  | zero => simpa using hlength
  | succ copies ih =>
    rw [Nat.succ_mul] at hlength
    have hrest : (w.drop period).HasPeriod period := by
      rw [hasPeriod_iff_getElem?] at h ⊢
      intro i hi
      rw [length_drop] at hi
      rw [getElem?_drop, getElem?_drop, h (period + i) (by omega), Nat.add_assoc]
    have hfront : copies = 0 ∨ (w.drop period).take period = w.take period := by
      rcases Nat.eq_zero_or_pos copies with hzero | hpos
      · exact .inl hzero
      · have hroom : period ≤ copies * period := Nat.le_mul_of_pos_left period hpos
        refine .inr (ext_getElem? fun i => ?_)
        rw [hasPeriod_iff_getElem?] at h
        by_cases hi : i < period
        · rw [getElem?_take_of_lt hi, getElem?_take_of_lt hi, getElem?_drop,
            Nat.add_comm, h i (by omega)]
        · rw [getElem?_take_eq_none (by omega), getElem?_take_eq_none (by omega)]
    have hdrop := ih hrest (by rw [length_drop]; omega)
    rw [replicate_succ, flatten_cons]
    conv_lhs => rw [← take_append_drop period w, hdrop]
    rcases hfront with rfl | hfront
    · rfl
    · rw [hfront]

theorem hasPeriod_copies (copies : ℕ) (block : List α) :
    (replicate copies block).flatten.HasPeriod block.length := by
  cases copies with
  | zero => simp
  | succ copies =>
    have hfront : (replicate (copies + 1) block).flatten.take block.length = block := by
      rw [replicate_succ, flatten_cons, take_left]
    have hshift : block ++ (replicate (copies + 1) block).flatten =
        (replicate (copies + 1) block).flatten ++ block := by
      rw [← flatten_cons, ← replicate_succ, replicate_succ', flatten_concat]
    unfold List.HasPeriod
    rw [hfront, hshift]
    exact prefix_append _ _

/-- The letters at the end of the list, the last one first, agree with those a period behind. -/
theorem repeats_iff {copies period : ℕ} (hcopies : 0 < copies) {l : List α} :
    Repeats copies period l ↔ copies * period ≤ l.length ∧
      ∀ i < (copies - 1) * period, l.reverse[i]? = l.reverse[i + period]? := by
  have hlength : copies * period - period = (copies - 1) * period := by
    rw [Nat.sub_mul, Nat.one_mul]
  constructor
  · rintro ⟨block, rfl, hsuffix⟩
    have hbound := hsuffix.length_le
    rw [length_copies] at hbound
    refine ⟨hbound, fun i hi => ?_⟩
    obtain ⟨front, rfl⟩ := hsuffix
    have hperiod := hasPeriod_copies copies block.reverse
    have hcopies' : (replicate copies block).flatten.reverse =
        (replicate copies block.reverse).flatten := by
      simp [reverse_flatten]
    rw [hasPeriod_iff_getElem?, length_copies, length_reverse, hlength] at hperiod
    rw [reverse_append, hcopies']
    have hin : i + block.length < (replicate copies block.reverse).flatten.length := by
      rw [length_copies, length_reverse]
      omega
    rw [getElem?_append_left (by omega), getElem?_append_left hin]
    exact hperiod i hi
  · rintro ⟨hbound, hback⟩
    have hword : (l.reverse.take (copies * period)).HasPeriod period := by
      rw [hasPeriod_iff_getElem?, length_take, length_reverse, Nat.min_eq_left hbound, hlength]
      intro i hi
      rw [getElem?_take_of_lt (by omega), getElem?_take_of_lt (by omega)]
      exact hback i hi
    have heq := eq_copies_of_hasPeriod hword
      (by rw [length_take, length_reverse, Nat.min_eq_left hbound])
    have hperiod : period ≤ copies * period := Nat.le_mul_of_pos_left period hcopies
    refine ⟨((l.reverse.take (copies * period)).take period).reverse, ?_, ?_⟩
    · simp only [length_reverse, length_take]
      omega
    · rw [← reverse_prefix]
      have hrev : (replicate copies
          ((l.reverse.take (copies * period)).take period).reverse).flatten.reverse =
          l.reverse.take (copies * period) := by
        rw [reverse_flatten]
        simpa using heq.symm
      rw [hrev]
      exact take_prefix _ _

theorem repeats_one_one {l : List α} (h : l ≠ []) : Repeats 1 1 l := by
  rw [repeats_iff (by decide)]
  exact ⟨by simpa using Nat.one_le_iff_ne_zero.mpr (length_pos_of_ne_nil h).ne', by simp⟩

/-- How far a property holds from zero on, below a limit. -/
def reach (p : ℕ → Bool) (limit : ℕ) : ℕ := ((range limit).takeWhile p).length

theorem le_length_takeWhile_iff {p : α → Bool} {l : List α} {k : ℕ} :
    k ≤ (l.takeWhile p).length ↔ k ≤ l.length ∧ ∀ a ∈ l.take k, p a = true := by
  induction l generalizing k with
  | nil => simp
  | cons a l ih =>
    cases k with
    | zero => simp
    | succ k =>
      cases hp : p a with
      | true => simp [hp, ih]
      | false => simp [hp]

theorem le_reach_iff {p : ℕ → Bool} {limit k : ℕ} :
    k ≤ reach p limit ↔ k ≤ limit ∧ ∀ i < k, p i = true := by
  unfold reach
  rw [le_length_takeWhile_iff, length_range]
  refine and_congr_right fun hk => ?_
  simp [take_range, Nat.min_eq_left hk]

theorem le_reach_div_iff {p : ℕ → Bool} {avail period copies : ℕ} (hperiod : 0 < period)
    (hroom : 2 * period ≤ avail) (hcopies : 0 < copies) :
    copies ≤ reach p (avail - period) / period + 1 ↔
      copies * period ≤ avail ∧ ∀ i < (copies - 1) * period, p i = true := by
  have hlength : copies * period = (copies - 1) * period + period := by
    rw [← Nat.succ_mul, Nat.succ_eq_add_one, Nat.sub_add_cancel hcopies]
  rw [← Nat.sub_le_iff_le_add, Nat.le_div_iff_mul_le hperiod, le_reach_iff]
  refine and_congr_left fun _ => ?_
  omega

end Ds4Studio.Repetition
