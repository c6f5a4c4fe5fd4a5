import Mathlib.Data.List.Infix
import Mathlib.Data.List.Range
import Mathlib.Data.List.Sort

/-!
Logs whose entries carry the numbers 1, 2, 3, … in order. A reader that has seen the
entries up to a number goes on behind it: what it has not seen is the rest of the log.
-/

namespace Ds4Studio.EventLog

open List

variable {E : Type*} {seq : E → ℕ} {log : List E}

/-- The entries carry the numbers 1, 2, 3, … in order. -/
def Numbered (seq : E → ℕ) (log : List E) : Prop := log.map seq = range' 1 log.length

/-- The entries behind a number. -/
def behind (seq : E → ℕ) (last : ℕ) (log : List E) : List E := log.filter fun e => last < seq e

theorem numbered_nil : Numbered seq [] := rfl

section

variable (h : Numbered seq log)

include h

theorem Numbered.concat {e : E} (he : seq e = log.length + 1) : Numbered seq (log ++ [e]) := by
  unfold Numbered
  rw [map_append, h, length_append, length_singleton, range'_concat]
  simp [he, Nat.add_comm]

theorem Numbered.seq_getElem {i : ℕ} (hi : i < log.length) : seq log[i] = i + 1 := by
  have hmap : (log.map seq)[i]? = some (i + 1) := by
    rw [h, getElem?_range' (by omega)]
    simp [Nat.add_comm]
  simpa [hi] using hmap

theorem Numbered.strict : log.Pairwise fun a b => seq a < seq b := by
  have hrange : (log.map seq).Pairwise (· < ·) := by
    rw [h]
    exact pairwise_lt_range' 1 (by decide)
  exact pairwise_map.mp hrange

theorem Numbered.le_length {e : E} (he : e ∈ log) : seq e ≤ log.length := by
  obtain ⟨i, hi, rfl⟩ := getElem_of_mem he
  rw [h.seq_getElem hi]
  exact hi

end

theorem behind_range (start last : ℕ) (h : log.map seq = range' (start + 1) log.length) :
    behind seq last log = log.drop (last - start) := by
  unfold behind
  induction log generalizing start with
  | nil => simp
  | cons e rest ih =>
    obtain ⟨he, hrest⟩ := cons_eq_cons.mp h
    have ih := ih (start + 1) hrest
    by_cases hlast : last ≤ start
    · have hdrop : last - start = 0 := by omega
      have hdrop' : last - (start + 1) = 0 := by omega
      rw [filter_cons_of_pos (by simp; omega), ih, hdrop, hdrop']
      rfl
    · have hdrop : last - start = last - (start + 1) + 1 := by omega
      rw [filter_cons_of_neg (by simp; omega), ih, hdrop, drop_succ_cons]

theorem Numbered.behind_eq_drop (h : Numbered seq log) (last : ℕ) :
    behind seq last log = log.drop last :=
  behind_range 0 last h

theorem Numbered.lt_of_mem_drop (h : Numbered seq log) {last : ℕ} {e : E}
    (he : e ∈ log.drop last) : last < seq e := by
  rw [← h.behind_eq_drop] at he
  simpa [behind] using (mem_filter.mp he).2

theorem Numbered.of_append {more : List E} (h : Numbered seq (log ++ more)) : Numbered seq log := by
  unfold Numbered at h
  rw [map_append, length_append, ← range'_append_1] at h
  exact (append_inj h (by simp)).1

theorem Numbered.le_of_mem_take (h : Numbered seq log) {n : ℕ} {e : E} (he : e ∈ log.take n) :
    seq e ≤ n := by
  rw [← take_append_drop n log] at h
  exact (h.of_append.le_length he).trans (length_take_le _ _)

theorem Numbered.foldr_max (h : Numbered seq log) : (log.map seq).foldr max 0 = log.length := by
  have hrange : ∀ n start : ℕ, (range' (start + 1) n).foldr max 0 =
      if n = 0 then 0 else start + n := by
    intro n
    induction n with
    | zero => exact fun _ => rfl
    | succ n ih =>
      intro start
      rw [range'_succ, foldr_cons, ih]
      split <;> simp <;> omega
  rw [h]
  have hfold := hrange log.length 0
  rw [hfold]
  split <;> omega

theorem Numbered.insertionSort_eq (h : Numbered seq log) {rows : List E}
    (hrows : rows.Sublist log) : rows.insertionSort (fun a b => seq a ≤ seq b) = rows :=
  List.Pairwise.insertionSort_eq ((h.strict.imp Nat.le_of_lt).sublist hrows)

end Ds4Studio.EventLog
