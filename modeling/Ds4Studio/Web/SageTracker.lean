import Ds4Studio.Agent.Sage
import Ds4Studio.Evolution.Contracts

/-!
The tracker of a Sage turn in the frontend. Its states, phases and flags have the names that they
have in the agent; the plots that a study of a function needs are counted by their kinds.
-/

namespace Ds4Studio.Web

open Agent (SageState SagePhase SageFlags)
open Evolution (trim lowerCase)

/-- `normalizedString`; of the letters that are no ASCII letters none becomes one that is in a
name. -/
def normalizedString (value : Option String) : String :=
  String.ofList (lowerCase (trim (value.getD "")).toList)

/-- `normalizeSagePhase` -/
def normalizeSagePhase (phase : Option String) : SagePhase :=
  let normalized := normalizedString phase
  if normalized = "prepare" then .prepare
  else if normalized = "validate" then .validate
  else if normalized = "plot" then .plot
  else if normalized = "repair" then .repair
  else .compute

def sageTaskTypes : List String :=
  ["auto", "evaluate", "simplify", "factor", "solve", "system", "calculus", "limit", "series",
    "function_study", "linear_algebra", "number_theory", "combinatorics", "probability",
    "geometry", "plot", "validation", "mixed"]

/-- `normalizeSageTaskType` -/
def normalizeSageTaskType (taskType : Option String) : String :=
  let normalized := normalizedString taskType
  if normalized ∈ sageTaskTypes then normalized else "auto"

/-- `SAGE_PHASE_BUDGETS` -/
def sagePhaseBudget : SagePhase → ℕ
  | .compute => 1
  | .repair => 2
  | .validate => 1
  | .plot => 2
  | .prepare => 0

def requiredFunctionStudyArtifacts : List String :=
  ["function_plot", "first_derivative_plot", "second_derivative_plot"]

structure SageTurnTracker where
  runId : Option String
  taskType : String
  requiresPlots : Bool
  state : SageState
  executeCount : ℕ
  repairCount : ℕ
  validationCount : ℕ
  plotCount : ℕ
  artifactKinds : List String
  validationPassed : Option Bool
  authoritative : Bool
  publishable : Bool
  reportReady : Bool
  finalMarkdownReady : Bool
  lastPhase : Option SagePhase
  failureCode : Option String

namespace SageTurnTracker

/-- `reset` -/
def new : SageTurnTracker where
  runId := none
  taskType := "auto"
  requiresPlots := false
  state := .idle
  executeCount := 0
  repairCount := 0
  validationCount := 0
  plotCount := 0
  artifactKinds := []
  validationPassed := none
  authoritative := false
  publishable := false
  reportReady := false
  finalMarkdownReady := false
  lastPhase := none
  failureCode := none

/-- `begin` -/
def begin_ (runId taskType : Option String) (requiresPlots : Option Bool) : SageTurnTracker :=
  { new with
    runId := runId
    taskType := normalizeSageTaskType taskType
    requiresPlots := requiresPlots.getD (normalizeSageTaskType taskType = "function_study")
    state := .prepared }

def canRun (t : SageTurnTracker) (phase : SagePhase) : Bool :=
  if t.state = .failed ∨ t.state = .ready then false
  else
    match phase with
    | .compute => t.state ∈ [.idle, .prepared] && t.executeCount < sagePhaseBudget .compute
    | .repair => t.state ∈ [.computed, .repairing] && t.repairCount < sagePhaseBudget .repair
    | .validate => t.state = .computed && t.validationCount < sagePhaseBudget .validate
    | .plot => t.state ∈ [.validated, .plotted] && t.plotCount < sagePhaseBudget .plot
    | .prepare => false

/-- `recordCall`: whether the call is allowed. -/
def recordCall (t : SageTurnTracker) (phase : SagePhase) : Option SageTurnTracker :=
  if t.canRun phase then
    let t := { t with lastPhase := some phase }
    match phase with
    | .compute => some { t with executeCount := t.executeCount + 1 }
    | .repair => some { t with repairCount := t.repairCount + 1, state := .repairing }
    | .validate => some { t with validationCount := t.validationCount + 1 }
    | .plot => some { t with plotCount := t.plotCount + 1 }
    | .prepare => some t
  else none

def fail (t : SageTurnTracker) (code : String) : SageTurnTracker :=
  { t with
    state := .failed
    failureCode := some (if code = "" then "SAGE_FINALIZATION_BLOCKED" else code)
    publishable := false }

def requiredPlotsReady (t : SageTurnTracker) : Bool :=
  !t.requiresPlots || requiredFunctionStudyArtifacts.all fun kind => t.artifactKinds.contains kind

def addKind (kinds : List String) (kind : String) : List String :=
  if kind = "" ∨ kind ∈ kinds then kinds else kinds ++ [kind]

/-- The kinds of the artifacts that a result brings; they are numbered where it names none. -/
def addKinds (kinds artifactKinds : List String) (artifactCount : ℕ) : List String :=
  match artifactKinds.foldl addKind kinds with
  | [] => (List.range artifactCount).map fun i => "legacy_artifact_" ++ toString (i + 1)
  | kinds => kinds

def setFlags (t : SageTurnTracker) (f : SageFlags) : SageTurnTracker :=
  { t with
    authoritative := f.authoritative
    validationPassed := some f.validationPassed
    publishable := f.publishable
    reportReady := f.reportReady
    finalMarkdownReady := f.finalMarkdownReady }

/-- The flags that have been recorded allow a publication. -/
def accepted (t : SageTurnTracker) : Bool :=
  t.authoritative && t.validationPassed = some true && t.publishable && t.reportReady &&
    t.finalMarkdownReady

/-- `recordResult` -/
def recordResult (t : SageTurnTracker) (phase : SagePhase) (isError : Bool) (f : SageFlags)
    (artifactKinds : List String) (artifactCount : ℕ) : SageTurnTracker :=
  let t := { t with
    lastPhase := some phase
    artifactKinds := addKinds t.artifactKinds artifactKinds artifactCount }
  if isError then
    if phase = .compute ∨ (phase = .repair ∧ t.repairCount < sagePhaseBudget .repair) then
      { t with state := .computed }
    else t.fail "SAGE_EXECUTION_FAILED"
  else
    match phase with
    | .compute | .repair => { t with state := .computed }
    | .validate =>
        let t := t.setFlags f
        if t.accepted then
          { t with state := if t.requiresPlots && !t.requiredPlotsReady then .validated else .ready }
        else t.fail "SAGE_RESULT_NOT_PUBLISHABLE"
    | .plot =>
        if t.requiredPlotsReady && t.accepted then { t with state := .ready }
        else if sagePhaseBudget .plot ≤ t.plotCount then t.fail "SAGE_ARTIFACT_MISSING"
        else { t with state := .plotted }
    | .prepare => t

def canFinalize (t : SageTurnTracker) : Bool :=
  t.state = .ready && t.accepted && t.requiredPlotsReady

def attempt (t : SageTurnTracker) : ℕ := max 1 (t.executeCount + t.repairCount)

end SageTurnTracker

end Ds4Studio.Web
