import Mathlib.Init

/-!
Blocks of a function that returns early. A block either goes on with a state or has
already returned, and is specified by what holds in each of the two cases.
-/

namespace Ds4Studio.Exit

universe u

variable {ε : Type*} {α β : Type u}

/-- `P` where the block goes on, `Q` where it has returned. -/
def Meets (x : Except ε α) (P : α → Prop) (Q : ε → Prop) : Prop :=
  match x with
  | .ok a => P a
  | .error e => Q e

variable {x : Except ε α} {P P' : α → Prop} {Q Q' : ε → Prop}

@[simp] theorem meets_ok (a : α) : Meets (.ok a : Except ε α) P Q ↔ P a := Iff.rfl

@[simp] theorem meets_pure (a : α) : Meets (pure a : Except ε α) P Q ↔ P a := Iff.rfl

@[simp] theorem meets_error (e : ε) : Meets (.error e : Except ε α) P Q ↔ Q e := Iff.rfl

theorem Meets.bind {f : α → Except ε β} {R : β → Prop} (h : Meets x P Q)
    (hf : ∀ a, P a → Meets (f a) R Q) : Meets (x >>= f) R Q := by
  cases x with
  | ok a => exact hf a h
  | error e => exact h

theorem Meets.ite {c : Prop} [Decidable c] {y : Except ε α} (hx : c → Meets x P Q)
    (hy : ¬ c → Meets y P Q) : Meets (if c then x else y) P Q := by
  by_cases h : c
  · rw [if_pos h]
    exact hx h
  · rw [if_neg h]
    exact hy h

end Ds4Studio.Exit
