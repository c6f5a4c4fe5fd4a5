import Mathlib.Logic.Relation

/-!
Runs of a step relation whose steps carry an action. A guard restricts a run to
the steps that meet a condition on the state in front of them; an invariant that
guarded steps keep holds at the end of every guarded run.
-/

namespace Ds4Studio.Run

variable {σ α : Type*}

/-- Some action that meets the guard leads from one state to the next. -/
def GuardedStep (step : σ → α → σ → Prop) (guard : σ → α → Prop) (s t : σ) : Prop :=
  ∃ a, step s a t ∧ guard s a

/-- A run all of whose steps meet the guard. -/
def Guarded (step : σ → α → σ → Prop) (guard : σ → α → Prop) : σ → σ → Prop :=
  Relation.ReflTransGen (GuardedStep step guard)

/-- A run without a guard. -/
def Free (step : σ → α → σ → Prop) : σ → σ → Prop := Guarded step fun _ _ => True

variable {step : σ → α → σ → Prop} {guard : σ → α → Prop} {s t u : σ}

theorem Guarded.refl (s : σ) : Guarded step guard s s := Relation.ReflTransGen.refl

theorem Guarded.snoc (h : Guarded step guard s t) {a : α} (ht : step t a u) (ha : guard t a) :
    Guarded step guard s u :=
  Relation.ReflTransGen.tail h ⟨a, ht, ha⟩

theorem Guarded.free (h : Guarded step guard s t) : Free step s t := by
  induction h with
  | refl => exact Guarded.refl s
  | tail _ hlast ih =>
    obtain ⟨a, hstep, -⟩ := hlast
    exact ih.snoc hstep trivial

/-- An invariant of the guarded steps holds at the end of a guarded run. -/
theorem Guarded.invariant {I : σ → Prop} (hstep : ∀ s a t, I s → step s a t → guard s a → I t)
    (h : Guarded step guard s t) (hs : I s) : I t := by
  induction h with
  | refl => exact hs
  | tail _ hlast ih =>
    obtain ⟨a, hnext, hguard⟩ := hlast
    exact hstep _ a _ ih hnext hguard

/-! ### Runs of a step function -/

/-- `P` holds of every event of a run and the state in front of it. -/
def Each (next : σ → α → σ) (P : σ → α → Prop) : σ → List α → Prop
  | _, [] => True
  | s, a :: rest => P s a ∧ Each next P (next s a) rest

theorem each_append {next : σ → α → σ} {P : σ → α → Prop} (front back : List α) :
    Each next P s (front ++ back) ↔
      Each next P s front ∧ Each next P (front.foldl next s) back := by
  induction front generalizing s with
  | nil => rw [List.nil_append, Each, true_and, List.foldl_nil]
  | cons a front ih =>
    rw [List.cons_append, Each, Each, ih, and_assoc]
    rfl

/-- The steps of a function that meet a guard one after another are a guarded run. -/
theorem Each.guarded {next : σ → α → σ} {events : List α} (h : Each next guard s events) :
    Guarded (fun s a t => next s a = t) guard s (events.foldl next s) := by
  induction events generalizing s with
  | nil => exact .refl s
  | cons a rest ih => exact Relation.ReflTransGen.head ⟨a, rfl, h.1⟩ (ih h.2)

/-- Where an invariant makes two properties of a step the same, and the steps that have them
keep the invariant, a run has one property all along just if it has the other. -/
theorem each_iff {next : σ → α → σ} {I : σ → Prop} {good meets : σ → α → Prop}
    (hsame : ∀ s a, I s → (good s a ↔ meets s a)) (hkeep : ∀ s a, I s → meets s a → I (next s a))
    (hs : I s) (events : List α) : Each next good s events ↔ Each next meets s events := by
  induction events generalizing s with
  | nil => rfl
  | cons a rest ih =>
    rw [Each, hsame s a hs]
    exact and_congr_right fun hmeets => ih (hkeep s a hs hmeets)

end Ds4Studio.Run
