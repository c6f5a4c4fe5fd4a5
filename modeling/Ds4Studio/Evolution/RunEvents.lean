import Ds4Studio.Evolution.Evaluator
import Ds4Studio.Evolution.States

/-!
What the automatic loop reads off the events of a run: the state, the revision and how much of the
budget is used.
-/

namespace Ds4Studio.Evolution

open List

variable {ν : Type}

/-! ### Events -/

inductive Role where
  | critic | proposer | patcher
deriving DecidableEq

inductive EventType where
  | runCreated
  | stateTransition (target : RunState) (reasonCode : Option String)
  | modelCallCompleted (role : Role) (responseHash : String)
  | other (name : String)
deriving DecidableEq

/-- An event, with the amounts that its payload has; an amount that is missing counts as zero. -/
structure RunEvent where
  revision : ℕ
  type : EventType
  promptTokens : ℕ := 0
  completionTokens : ℕ := 0
  wallTimeMs : ℕ := 0
deriving DecidableEq

def transition (revision : ℕ) (target : RunState) (reasonCode : Option String) : RunEvent where
  revision := revision
  type := .stateTransition target reasonCode

def RunEvent.target (e : RunEvent) : Option RunState :=
  match e.type with
  | .stateTransition target _ => some target
  | _ => none

def RunEvent.isModelCall (e : RunEvent) : Bool :=
  match e.type with
  | .modelCallCompleted _ _ => true
  | _ => false

/-- The state that `reconstruct` finds. -/
def runState (events : List RunEvent) : RunState :=
  events.foldl (fun state e => e.target.getD state) .created

/-- The revision that `reconstruct` finds: the greatest one of any event. -/
def runRevision (events : List RunEvent) : ℕ := (events.map RunEvent.revision).foldl max 0

/-- The revision that `buildRevision` goes on from: the greatest one of a transition. -/
def parentRevision (events : List RunEvent) : ℕ :=
  runRevision (events.filter fun e => e.target.isSome)

/-! ### The budget -/

structure BudgetState where
  promptTokens : ℕ
  completionTokens : ℕ
  wallTimeMs : ℕ
  callsThisRevision : ℕ
  exceeded : Bool

/-- A limit that is not there is never exceeded. -/
def aboveLimit (n : ℕ) (limit : Option ℤ) : Bool := limit.any fun l => l < (n : ℤ)

/-- `deriveBudgetState` -/
def deriveBudgetState (budgets : Budgets) (events : List RunEvent) : BudgetState :=
  let modelEvents := events.filter RunEvent.isModelCall
  let promptTokens := (modelEvents.map RunEvent.promptTokens).sum
  let completionTokens := (modelEvents.map RunEvent.completionTokens).sum
  let wallTimeMs := (events.map RunEvent.wallTimeMs).sum
  let callsThisRevision :=
    (modelEvents.filter fun e => e.revision = runRevision events).length
  let limit := fun total perRevision => (budgets.get total).or (budgets.get perRevision)
  ⟨promptTokens, completionTokens, wallTimeMs, callsThisRevision,
    aboveLimit promptTokens (limit "maxTotalPromptTokens" "maxPromptTokensPerRevision") ||
      aboveLimit completionTokens
        (limit "maxTotalCompletionTokens" "maxCompletionTokensPerRevision") ||
      aboveLimit wallTimeMs (limit "maxTotalWallTimeMs" "maxWallTimeMsPerRevision") ||
      ((budgets.get "maxModelCallsPerRevision").getD (2 ^ 53 - 1) ≤ (callsThisRevision : ℤ))⟩

inductive Continuation where
  | go
  /-- `STATE_…` of a state in which the loop has ended. -/
  | halted
  | budgetExhausted
  | stateNotRunnable

/-- `decideLoopContinuation` -/
def decideLoopContinuation (state : RunState) (budget : BudgetState) : Continuation :=
  if [RunState.manualReview, .completed, .stopped, .failed].contains state then .halted
  else if budget.exceeded then .budgetExhausted
  else if [RunState.baselineReady, .rejected, .promoted].contains state then .go
  else .stateNotRunnable

/-! ### What more events change -/

theorem foldl_max (l : List ℕ) (n : ℕ) : l.foldl max n = max n (l.foldl max 0) := by
  induction l generalizing n with
  | nil => simp
  | cons a l ih =>
    rw [foldl_cons, foldl_cons, ih, ih (max 0 a)]
    omega

theorem runRevision_append (events more : List RunEvent) :
    runRevision (events ++ more) = max (runRevision events) (runRevision more) := by
  unfold runRevision
  rw [map_append, foldl_append, foldl_max]

variable {events : List RunEvent}

theorem le_runRevision {e : RunEvent} (h : e ∈ events) : e.revision ≤ runRevision events := by
  obtain ⟨front, back, rfl⟩ := append_of_mem h
  rw [runRevision_append]
  refine le_trans ?_ (le_max_right _ _)
  unfold runRevision
  rw [map_cons, foldl_cons, foldl_max]
  exact le_trans (le_max_right 0 _) (le_max_left _ _)

theorem runRevision_le {n : ℕ} (h : ∀ e ∈ events, e.revision ≤ n) : runRevision events ≤ n := by
  induction events with
  | nil => exact Nat.zero_le n
  | cons e rest ih =>
    have hsplit := runRevision_append [e] rest
    rw [singleton_append] at hsplit
    rw [hsplit]
    refine max_le ?_ (ih fun f hf => h f (mem_cons_of_mem e hf))
    have he := h e mem_cons_self
    unfold runRevision
    simpa using he

theorem runRevision_snoc {e : RunEvent} (h : e.revision ≤ runRevision events) :
    runRevision (events ++ [e]) = runRevision events := by
  have hle : runRevision [e] ≤ runRevision events := by
    refine runRevision_le fun f hf => ?_
    rw [mem_singleton.mp hf]
    exact h
  rw [runRevision_append]
  omega

end Ds4Studio.Evolution
