import Mathlib.Data.List.Basic

/-!
Splitting a list at a letter, one letter after the other.
-/

namespace Ds4Studio.Splits

open List

variable {α : Type*} [BEq α] [LawfulBEq α]

/-- The part behind the last separator. -/
def lastPart (a : α) (l : List α) : List α := (l.splitOn a).getLastD []

variable (a : α)

omit [LawfulBEq α] in
theorem splitOn_eq_concat (l : List α) :
    l.splitOn a = (l.splitOn a).dropLast ++ [lastPart a l] := by
  have hne := splitOn_ne_nil a l
  unfold lastPart
  rw [getLastD_eq_getLast?, getLast?_eq_some_getLast hne]
  exact (dropLast_append_getLast hne).symm

theorem splitOn_concat_self (l : List α) : (l ++ [a]).splitOn a = l.splitOn a ++ [[]] := by
  simpa using splitOn_append_cons_self l []

theorem splitOn_concat_of_ne {a c : α} (h : c ≠ a) (l : List α) :
    (l ++ [c]).splitOn a = (l.splitOn a).dropLast ++ [lastPart a l ++ [c]] := by
  induction l with
  | nil =>
    have hc : a ∉ [c] := by simpa using h.symm
    simpa [lastPart] using splitOn_eq_singleton hc
  | cons x l ih =>
    have hne := splitOn_ne_nil a l
    obtain ⟨y, ys, hys⟩ := exists_cons_of_ne_nil hne
    rw [cons_append, splitOn_cons_eq_if_modifyHead, ih]
    unfold lastPart
    rw [splitOn_cons_eq_if_modifyHead, hys]
    split
    · simp
    · cases ys <;> simp

theorem dropLast_splitOn_concat_self (l : List α) :
    ((l ++ [a]).splitOn a).dropLast = (l.splitOn a).dropLast ++ [lastPart a l] := by
  rw [splitOn_concat_self, dropLast_concat]
  exact splitOn_eq_concat a l

theorem lastPart_concat_self (l : List α) : lastPart a (l ++ [a]) = [] := by
  simp [lastPart, splitOn_concat_self]

theorem dropLast_splitOn_concat_of_ne {a c : α} (h : c ≠ a) (l : List α) :
    ((l ++ [c]).splitOn a).dropLast = (l.splitOn a).dropLast := by
  simp [splitOn_concat_of_ne h]

theorem lastPart_concat_of_ne {a c : α} (h : c ≠ a) (l : List α) :
    lastPart a (l ++ [c]) = lastPart a l ++ [c] := by
  simp [lastPart, splitOn_concat_of_ne h]

omit [LawfulBEq α] in
theorem length_splitOn_le (l : List α) : (l.splitOn a).length ≤ l.length + 1 := by
  induction l with
  | nil => simp
  | cons x l ih =>
    rw [splitOn_cons_eq_if_modifyHead, length_cons]
    split
    · simpa using ih
    · rw [length_modifyHead]
      omega

/-- The part in front of the first separator. -/
def firstPart (a : α) (l : List α) : List α := (l.splitOn a).headD []

omit [LawfulBEq α] in
theorem splitOn_eq_cons (l : List α) : l.splitOn a = firstPart a l :: (l.splitOn a).tail := by
  obtain ⟨first, rest, h⟩ := exists_cons_of_ne_nil (splitOn_ne_nil a l)
  unfold firstPart
  rw [h]
  rfl

omit [LawfulBEq α] in
/-- The last part of the first text and the first part of the second make one part. -/
theorem splitOn_append (l l' : List α) :
    (l ++ l').splitOn a = (l.splitOn a).dropLast ++
      (lastPart a l ++ firstPart a l') :: (l'.splitOn a).tail := by
  induction l with
  | nil => simpa [lastPart] using splitOn_eq_cons a l'
  | cons x l ih =>
    obtain ⟨y, ys, hys⟩ := exists_cons_of_ne_nil (splitOn_ne_nil a l)
    rw [cons_append, splitOn_cons_eq_if_modifyHead, ih]
    unfold lastPart
    rw [splitOn_cons_eq_if_modifyHead, hys]
    split
    · simp
    · cases ys <;> simp

variable {l : List α}

omit [LawfulBEq α] in
theorem splitOn_concat_parts {m : List α} (h : m.splitOn a = [m]) :
    ((l ++ m).splitOn a).dropLast = (l.splitOn a).dropLast ∧
      lastPart a (l ++ m) = lastPart a l ++ m := by
  have hsplit := splitOn_append a l m
  rw [firstPart, h] at hsplit
  unfold lastPart at hsplit ⊢
  rw [hsplit]
  exact ⟨by simp, by simp⟩

omit [LawfulBEq α] in
theorem splitOn_cons_parts {m : List α} (h : m.splitOn a = [m]) :
    firstPart a (m ++ l) = m ++ firstPart a l ∧
      ((m ++ l).splitOn a).tail = (l.splitOn a).tail := by
  have hsplit := splitOn_append a m l
  rw [lastPart, h] at hsplit
  unfold firstPart at hsplit ⊢
  rw [hsplit]
  exact ⟨by simp, by simp⟩

theorem not_mem_of_mem_splitOn (l : List α) : ∀ part ∈ l.splitOn a, a ∉ part := by
  induction l with
  | nil => simp
  | cons x l ih =>
    obtain ⟨y, ys, hys⟩ := exists_cons_of_ne_nil (splitOn_ne_nil a l)
    rw [hys] at ih
    rw [splitOn_cons_eq_if_modifyHead, hys]
    split
    case isTrue => exact forall_mem_cons.mpr ⟨not_mem_nil, ih⟩
    case isFalse h =>
      obtain ⟨hy, hrest⟩ := forall_mem_cons.mp ih
      refine forall_mem_cons.mpr ⟨fun hmem => ?_, hrest⟩
      rcases mem_cons.mp hmem with rfl | hmem
      · exact h (beq_self_eq_true a)
      · exact hy hmem

/-- Parts without the separator can be told from the list that they make with one behind each. -/
theorem eq_of_flatMap_eq {a : α} {parts parts' : List (List α)} (h : ∀ part ∈ parts, a ∉ part)
    (h' : ∀ part ∈ parts', a ∉ part)
    (heq : (parts.flatMap fun part => part ++ [a]) = parts'.flatMap fun part => part ++ [a]) :
    parts = parts' := by
  have hsplit : ∀ {l : List (List α)}, (∀ part ∈ l, a ∉ part) →
      (l.flatMap fun part => part ++ [a]).splitOn a = l ++ [[]] := by
    intro l hl
    induction l with
    | nil => simp
    | cons part l ih =>
      obtain ⟨hpart, hrest⟩ := forall_mem_cons.mp hl
      rw [flatMap_cons, append_assoc, singleton_append,
        splitOn_append_cons_self_of_not_mem hpart, ih hrest, cons_append]
  have hboth := hsplit h
  rw [heq, hsplit h'] at hboth
  exact (append_cancel_right hboth).symm

/-! ### Lines -/

/-- The lines of a list, without the separators that end them. -/
def lines (a : α) (l : List α) : List (List α) :=
  if (lastPart a l).isEmpty then (l.splitOn a).dropLast else l.splitOn a

omit [LawfulBEq α] in
theorem lines_of_lastPart {a : α} (h : lastPart a l = []) : l.splitOn a = lines a l ++ [[]] := by
  rw [lines, h, isEmpty_nil, if_pos rfl, ← h]
  exact splitOn_eq_concat a l

omit [LawfulBEq α] in
theorem lines_of_lastPart_ne {a : α} (h : lastPart a l ≠ []) : lines a l = l.splitOn a := by
  rw [lines, if_neg (by simpa using h)]

theorem lastPart_eq_nil_iff {a : α} : lastPart a l = [] ↔ ∀ c ∈ l.getLast?, c = a := by
  rcases eq_nil_or_concat l with rfl | ⟨front, c, rfl⟩
  · simp [lastPart]
  · rw [concat_eq_append]
    by_cases hc : c = a
    · simp [hc, lastPart_concat_self]
    · simp [hc, lastPart_concat_of_ne hc]

theorem flatMap_splitOn (l : List α) :
    ((l.splitOn a).flatMap fun part => part ++ [a]) = l ++ [a] := by
  induction l with
  | nil => simp
  | cons x l ih =>
    obtain ⟨y, ys, hys⟩ := exists_cons_of_ne_nil (splitOn_ne_nil a l)
    rw [splitOn_cons_eq_if_modifyHead]
    rw [hys] at ih ⊢
    split
    case isTrue h => simp [ih, eq_of_beq h]
    case isFalse => simpa using ih

/-- The lines, each with a separator behind it, are the list with one at its end. -/
theorem flatMap_lines (l : List α) :
    ((lines a l).flatMap fun line => line ++ [a]) =
      if (lastPart a l).isEmpty then l else l ++ [a] := by
  have hflat := flatMap_splitOn a l
  split
  case isTrue h =>
    rw [List.isEmpty_iff] at h
    rw [lines_of_lastPart h] at hflat
    simpa using hflat
  case isFalse h => rwa [lines_of_lastPart_ne (by simpa using h)]

omit [LawfulBEq α] in
theorem length_splitOn (l : List α) : (l.splitOn a).length = l.count a + 1 := by
  induction l with
  | nil => simp
  | cons x l ih =>
    rw [splitOn_cons_eq_if_modifyHead, count_cons]
    split
    · simp [ih]
    · simp [ih]

omit [LawfulBEq α] in
theorem length_lines (l : List α) :
    (lines a l).length = l.count a + if (lastPart a l).isEmpty then 0 else 1 := by
  have hlen := length_splitOn a l
  split
  case isTrue h =>
    rw [List.isEmpty_iff] at h
    rw [lines_of_lastPart h] at hlen
    simpa using hlen
  case isFalse h => rwa [lines_of_lastPart_ne (by simpa using h)]

end Ds4Studio.Splits
