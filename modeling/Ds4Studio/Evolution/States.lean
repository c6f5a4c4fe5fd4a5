import Ds4Studio.Json.Canonical

/-!
The states of an evolution run and the transitions between them.
-/

namespace Ds4Studio.Evolution

open Json

inductive RunState where
  | created | baselineCapturing | baselineEvaluating | baselineReady | proposing
  | candidateBuilding | candidateReady | executing | evaluating | diagnosing | gating | promoted
  | rejected | manualReview | completed | stopped | failed
deriving DecidableEq

namespace RunState

def name : RunState → String
  | created => "CREATED"
  | baselineCapturing => "BASELINE_CAPTURING"
  | baselineEvaluating => "BASELINE_EVALUATING"
  | baselineReady => "BASELINE_READY"
  | proposing => "PROPOSING"
  | candidateBuilding => "CANDIDATE_BUILDING"
  | candidateReady => "CANDIDATE_READY"
  | executing => "EXECUTING"
  | evaluating => "EVALUATING"
  | diagnosing => "DIAGNOSING"
  | gating => "GATING"
  | promoted => "PROMOTED"
  | rejected => "REJECTED"
  | manualReview => "MANUAL_REVIEW"
  | completed => "COMPLETED"
  | stopped => "STOPPED"
  | failed => "FAILED"

/-- `EVOLUTION_STATES` -/
def all : List RunState :=
  [created, baselineCapturing, baselineEvaluating, baselineReady, proposing, candidateBuilding,
    candidateReady, executing, evaluating, diagnosing, gating, promoted, rejected, manualReview,
    completed, stopped, failed]

def ofName (name : JsString) : Option RunState := all.find? fun s => js s.name = name

theorem ofName_name (s : RunState) : ofName (js s.name) = some s := by cases s <;> decide

/-- `TERMINAL_STATES` -/
def terminal : RunState → Bool
  | completed | stopped | failed => true
  | _ => false

/-- `ALLOWED_TRANSITIONS` -/
def allowed : RunState → List RunState
  | created => [baselineCapturing]
  | baselineCapturing => [baselineEvaluating]
  | baselineEvaluating => [baselineReady, failed]
  | baselineReady => [proposing]
  | proposing => [candidateBuilding, stopped]
  | candidateBuilding => [candidateReady, rejected]
  | candidateReady => [executing]
  | executing => [evaluating, failed]
  | evaluating => [diagnosing]
  | diagnosing => [gating]
  | gating => [promoted, rejected, manualReview]
  | promoted => [proposing, completed]
  | rejected => [proposing, stopped]
  | manualReview => [promoted, rejected]
  | completed => []
  | stopped => []
  | failed => []

/-- `EXCEPTIONAL_TRANSITION_KINDS` -/
def exceptionalKind : RunState → Option String
  | failed => some "hard_failure"
  | stopped => some "stop"
  | _ => none

end RunState

/-- `/^[A-Z][A-Z0-9_:-]{2,127}$/` -/
def reasonPattern (s : JsString) : Bool :=
  let upper : Fin 0x110000 → Bool := fun c => 0x41 ≤ c.val && c.val ≤ 0x5a
  let tail : Fin 0x110000 → Bool := fun c =>
    upper c || (0x30 ≤ c.val && c.val ≤ 0x3a) || c.val = 0x5f || c.val = 0x2d
  match s with
  | [] => false
  | c :: rest => upper c && 2 ≤ rest.length && rest.length ≤ 127 && rest.all tail

/-- `assertTransition`, for an exceptional kind and a reason. -/
def assertTransition (source target : RunState) (kind : Option JsString) (reason : JsString) :
    Bool :=
  !source.terminal &&
    (source.allowed.contains target ||
      match target.exceptionalKind with
      | none => false
      | some required =>
          kind = some (js required) && (target ≠ .failed || reasonPattern reason))

end Ds4Studio.Evolution
