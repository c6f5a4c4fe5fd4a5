import Mathlib.Data.List.Forall2

/-!
A text that comes in chunks. What is read from each chunk alone is compared with what is read from
the whole, where cutting the text makes the result longer or changes some of its parts.
-/

namespace Ds4Studio.Chunks

open List

variable {α β : Type*} {R : α → α → Prop} [IsPartialOrder α R]

/-- The second list is longer, or it has at each place what the relation allows. -/
def Grows (R : α → α → Prop) (l l' : List α) : Prop := l.length < l'.length ∨ List.Forall₂ R l l'

theorem Grows.refl (l : List α) : Grows R l l := .inr (forall₂_refl l)

variable {l l' : List α}

omit [IsPartialOrder α R] in
theorem Grows.length_le (h : Grows R l l') : l.length ≤ l'.length := by
  rcases h with h | h
  · exact Nat.le_of_lt h
  · exact Nat.le_of_eq h.length_eq

omit [IsPartialOrder α R] in
theorem Grows.of_length (h : Grows R l l') (hlen : l'.length ≤ l.length) :
    List.Forall₂ R l l' := by
  rcases h with h | h
  · omega
  · exact h

theorem forall₂_trans {l l' l'' : List α} (h : List.Forall₂ R l l')
    (h' : List.Forall₂ R l' l'') : List.Forall₂ R l l'' := by
  induction h generalizing l'' with
  | nil => exact h'
  | cons hhead _ ih =>
    cases h' with
    | cons hhead' htail' => exact .cons (trans_of R hhead hhead') (ih htail')

theorem forall₂_antisymm (h : List.Forall₂ R l l')
    (h' : List.Forall₂ R l' l) : l = l' := by
  induction h with
  | nil => rfl
  | cons hhead _ ih =>
    cases h' with
    | cons hhead' htail' => rw [antisymm_of R hhead hhead', ih htail']

theorem Grows.trans {l l' l'' : List α} (h : Grows R l l') (h' : Grows R l' l'') :
    Grows R l l'' := by
  rcases h with hlt | hall
  · exact .inl (Nat.lt_of_lt_of_le hlt h'.length_le)
  · rcases h' with hlt | hall'
    · exact .inl (hall.length_eq ▸ hlt)
    · exact .inr (forall₂_trans hall hall')

theorem Grows.append_left (h : Grows R l l') (front : List α) :
    Grows R (front ++ l) (front ++ l') := by
  rcases h with hlt | hall
  · exact .inl (by simpa using hlt)
  · exact .inr (rel_append (forall₂_refl front) hall)

theorem Grows.append_right (h : Grows R l l') (back : List α) :
    Grows R (l ++ back) (l' ++ back) := by
  rcases h with hlt | hall
  · exact .inl (by simpa using hlt)
  · exact .inr (rel_append hall (forall₂_refl back))

theorem Grows.antisymm (h : Grows R l l') (h' : Grows R l' l) : l = l' :=
  forall₂_antisymm (h.of_length h'.length_le) (h'.of_length h.length_le)

/-- Every chunk and the text behind it meet well. -/
def Apart (Bad : List β → List β → Prop) : List (List β) → Prop
  | [] => True
  | chunk :: rest => ¬ Bad chunk rest.flatten ∧ Apart Bad rest

instance (Bad : List β → List β → Prop) [∀ a b, Decidable (Bad a b)] (chunks : List (List β)) :
    Decidable (Apart Bad chunks) := by
  induction chunks with
  | nil => exact .isTrue trivial
  | cons chunk rest ih => exact inferInstanceAs (Decidable (_ ∧ _))

/-- A reading of a text that grows where the text is cut, and stays the same where it is cut
well. -/
structure Reads (R : α → α → Prop) (Bad : List β → List β → Prop) (read : List β → List α) :
    Prop where
  nil : read [] = []
  grows : ∀ a b, Grows R (read (a ++ b)) (read a ++ read b)
  eq_iff : ∀ a b, read (a ++ b) = read a ++ read b ↔ ¬ Bad a b

variable {Bad : List β → List β → Prop} {read : List β → List α}

theorem Reads.flatten_grows (h : Reads R Bad read) (chunks : List (List β)) :
    Grows R (read chunks.flatten) (chunks.flatMap read) := by
  induction chunks with
  | nil =>
    rw [flatten_nil, h.nil]
    exact Grows.refl _
  | cons chunk rest ih => exact (h.grows chunk rest.flatten).trans (ih.append_left _)

/-- The chunks are read as the whole just where all of them meet well. -/
theorem Reads.flatten_eq_iff (h : Reads R Bad read) (chunks : List (List β)) :
    chunks.flatMap read = read chunks.flatten ↔ Apart Bad chunks := by
  induction chunks with
  | nil => exact iff_of_true h.nil.symm trivial
  | cons chunk rest ih =>
    have htail := h.flatten_grows rest
    rw [flatMap_cons, flatten_cons]
    constructor
    · intro heq
      have hback : Grows R (read chunk ++ read rest.flatten) (read (chunk ++ rest.flatten)) :=
        heq ▸ htail.append_left (read chunk)
      have hcut := (h.grows chunk rest.flatten).antisymm hback
      rw [hcut] at heq
      exact ⟨(h.eq_iff _ _).mp hcut, ih.mp (append_cancel_left heq)⟩
    · rintro ⟨hcut, hrest⟩
      rw [(h.eq_iff _ _).mpr hcut, ih.mpr hrest]

end Ds4Studio.Chunks
