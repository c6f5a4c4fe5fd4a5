import Ds4Studio.Lib.Bytes
import Mathlib.Data.Rat.Defs
import Mathlib.Data.String.Basic

/-!
The state of the mathematical tool within one turn of the agent: the phases a turn may
go through, the request of one phase, and when a response may be published.
-/

namespace Ds4Studio.Agent

open Bytes

inductive SageState where
  | idle | prepared | computed | repairing | validated | plotted | ready | failed
deriving DecidableEq

inductive SagePhase where
  | prepare | compute | repair | validate | plot
deriving DecidableEq

/-- An unknown phase is a computation. -/
def sagePhaseNormalize (phase : Option Bytes) : SagePhase :=
  if phase = some (str "prepare") then .prepare
  else if phase = some (str "repair") then .repair
  else if phase = some (str "validate") then .validate
  else if phase = some (str "plot") then .plot
  else .compute

def sageStateName : SageState → Bytes
  | .idle => str "idle"
  | .prepared => str "prepared"
  | .computed => str "computed"
  | .repairing => str "repairing"
  | .validated => str "validated"
  | .plotted => str "plotted"
  | .ready => str "ready"
  | .failed => str "failed"

structure SageTurn where
  state : SageState
  executeCount : ℕ
  repairCount : ℕ
  validationCount : ℕ
  plotCount : ℕ
  finalizationBlockCount : ℕ
  used : Bool
  authoritative : Bool
  validationPassed : Bool
  publishable : Bool
  reportReady : Bool
  finalMarkdownReady : Bool
  runId : Bytes
  taskType : Bytes
  failureCode : Bytes

/-- `agent_sage_turn_reset` -/
def SageTurn.fresh : SageTurn where
  state := .idle
  executeCount := 0
  repairCount := 0
  validationCount := 0
  plotCount := 0
  finalizationBlockCount := 0
  used := false
  authoritative := false
  validationPassed := false
  publishable := false
  reportReady := false
  finalMarkdownReady := false
  runId := []
  taskType := str "auto"
  failureCode := []

def SageTurn.fail (s : SageTurn) (code : Bytes) : SageTurn :=
  { s with
    state := .failed
    publishable := false
    failureCode := if code = [] then str "SAGE_FINALIZATION_BLOCKED" else code }

/-- `agent_sage_turn_before_call`: whether the call is admitted. -/
def SageTurn.beforeCall (s : SageTurn) (phase : SagePhase) : Option SageTurn :=
  match phase with
  | .compute =>
      if (s.state = .idle ∨ s.state = .prepared) ∧ s.executeCount < 1 then
        some { s with executeCount := s.executeCount + 1, state := .prepared, used := true }
      else none
  | .repair =>
      if (s.state = .computed ∨ s.state = .repairing) ∧ s.repairCount < 5 then
        some { s with repairCount := s.repairCount + 1, state := .repairing, used := true }
      else none
  | .validate =>
      if s.state = .computed ∧ s.validationCount < 1 then
        some { s with validationCount := s.validationCount + 1, used := true }
      else none
  | .plot =>
      if (s.state = .validated ∨ s.state = .plotted) ∧ s.plotCount < 3 then
        some { s with plotCount := s.plotCount + 1, used := true }
      else none
  | .prepare => none

/-- The flags of a response that decide whether it can be published. -/
structure SageFlags where
  authoritative : Bool
  validationPassed : Bool
  publishable : Bool
  reportReady : Bool
  finalMarkdownReady : Bool

def SageFlags.none : SageFlags := ⟨false, false, false, false, false⟩

def SageFlags.all (f : SageFlags) : Bool :=
  f.authoritative && f.validationPassed && f.publishable && f.reportReady && f.finalMarkdownReady

def SageTurn.setFlags (s : SageTurn) (f : SageFlags) : SageTurn :=
  { s with
    authoritative := f.authoritative
    validationPassed := f.validationPassed
    publishable := f.publishable
    reportReady := f.reportReady
    finalMarkdownReady := f.finalMarkdownReady }

/-- `agent_sage_turn_after_result` -/
def SageTurn.afterResult (s : SageTurn) (phase : SagePhase) (isError : Bool) (f : SageFlags) :
    SageTurn :=
  if isError then
    if phase = .compute ∨ (phase = .repair ∧ s.repairCount < 5) then { s with state := .computed }
    else s.fail (str "SAGE_EXECUTION_FAILED")
  else
    match phase with
    | .compute | .repair => { s with state := .computed }
    | .validate =>
        if f.all then { s.setFlags f with state := .ready }
        else (s.setFlags f).fail (str "SAGE_RESULT_NOT_PUBLISHABLE")
    | .plot =>
        if f.all then { s.setFlags f with state := .ready }
        else if 3 ≤ s.plotCount then s.fail (str "SAGE_ARTIFACT_MISSING")
        else { s with state := .plotted }
    | .prepare => s

def SageTurn.canFinalize (s : SageTurn) : Bool :=
  s.state = .ready && s.authoritative && s.validationPassed && s.publishable && s.reportReady &&
    s.finalMarkdownReady

example :
    (((SageTurn.fresh.beforeCall .compute).map (·.afterResult .compute false .none)).bind
      (·.beforeCall .validate)).map
        (fun s => (s.afterResult .validate false ⟨true, true, true, true, true⟩).canFinalize) =
      some true := rfl

/-- Another answer in prose is refused. -/
def SageTurn.block (s : SageTurn) : SageTurn :=
  { s with finalizationBlockCount := s.finalizationBlockCount + 1 }

def SageTurn.attempt (s : SageTurn) : ℕ := max 1 (s.executeCount + s.repairCount)

/-! ### The request -/

structure SageHttpResult where
  content : Option Bytes
  contractVersion : Option Bytes
  runId : Option Bytes
  state : Option Bytes
  finalMarkdown : Option Bytes
  isError : Bool
  publishable : Bool
  authoritative : Bool
  validationPassed : Bool
  reportReady : Bool

def SageHttpResult.hasMarkdown (r : SageHttpResult) : Bool := r.finalMarkdown.any (!·.isEmpty)

/-- `agent_sage_http_result_is_ready` -/
def SageHttpResult.isReady (r : SageHttpResult) (expectedRunId : Bytes) : Bool :=
  !r.isError && r.contractVersion = some (str "sage_result_v2") &&
    r.runId = some expectedRunId && r.state = some (str "ready") &&
    r.publishable && r.authoritative && r.validationPassed && r.reportReady && r.hasMarkdown

def SageHttpResult.flags (r : SageHttpResult) : SageFlags :=
  ⟨r.authoritative, r.validationPassed, r.publishable, r.reportReady, r.hasMarkdown⟩

/-- What becomes of one attempt to post the request. -/
inductive Attempt where
  | encodingFailed
  | memoryFailed
  | popenFailed
  | exited (code : ℤ) (output : Option Bytes)

inductive HttpOutcome where
  /-- the request was given up with this result -/
  | failed (text : Bytes)
  | response (output : Bytes)
  | exhausted (code : ℤ) (output : Option Bytes)

def transientExit : List ℤ :=
  [2, 7, 9, 18, 22, 25, 26, 27, 28, 47, 48, 49, 50, 51, 52, 53, 55, 56, 58, 60, 61]

/-- `none` when the attempt is to be repeated. -/
def attemptOutcome (last : Bool) : Attempt → Option HttpOutcome
  | .encodingFailed => some (.failed (str "Tool error: sage HTTP command encoding failed\n"))
  | .memoryFailed => some (.failed (str "Tool error: sage memory error\n"))
  | .popenFailed =>
      if last then
        some (.failed (str "Tool error: sage HTTP backend unavailable (popen failed)\n"))
      else none
  | .exited code output =>
      match output with
      | some text =>
          if code = 0 then some (.response text)
          else if code ∈ transientExit ∧ ¬ last then none
          else some (.exhausted code output)
      | none =>
          if code ∈ transientExit ∧ ¬ last then none else some (.exhausted code none)

/-- The retry loop, with the attempts that are left after the current one. -/
def sageRetry (attempts : ℕ → Attempt) : ℕ → HttpOutcome
  | 0 => (attemptOutcome true (attempts 0)).getD (.exhausted (-1) none)
  | left + 1 => (attemptOutcome false (attempts (left + 1))).getD (sageRetry attempts left)

def sageRetryMaxAttempts : ℕ := 4

structure ToolCall where
  name : Option Bytes
  args : List (Bytes × Bytes)
deriving DecidableEq

def toolArgValue (call : ToolCall) (name : Bytes) : Option Bytes :=
  (call.args.find? fun arg => arg.1 = name).map Prod.snd

/-- What the client of the turn receives, and the two steps of the mathematical tool that
its guarantee is about. -/
inductive Event where
  | rendered (text : Bytes)
  | status (text : Bytes)
  | sageStatus (text : Bytes)
  | summary (text : Bytes)
  | final (markdown : Bytes)
  | admitted (phase : SagePhase)
  | validated (result : SageHttpResult) (runId : Bytes)

structure SageConfig where
  prompt : Option Bytes
  policyRevision : Bytes
  authoritativeLoop : Bool
  frontendPort : ℤ
  sessionSha : Bytes
  /-- `agent_sage_http_result_parse` -/
  parse : Bytes → SageHttpResult

/-- What the worker keeps for the tool. -/
structure Sage where
  turn : SageTurn
  finalMarkdown : Option Bytes
  sequence : ℕ
  consecutiveRounds : ℕ
  totalCalls : ℕ
  turnStart : ℚ

/-- What happens around one call: the number of run ids made so far, whether the request
could be built, and the attempts to post it. -/
structure SageWorld where
  nonce : ℕ
  bodyBuilt : Bool
  bodyQuoted : Bool
  attempts : ℕ → Attempt

structure SageCall where
  sage : Sage
  events : List Event
  text : Bytes

/-- `agent_sage_turn_ensure_run_id` -/
def ensureRunId (cfg : SageConfig) (nonce : ℕ) (s : Sage) : Sage × Bool :=
  if s.turn.runId ≠ [] then (s, true)
  else
    let sequence := (s.sequence + 1) % 2 ^ 64
    let sha := if cfg.sessionSha = [] then str "000000000000" else cfg.sessionSha
    let id := str "sage-" ++ sha.take 12 ++ str "-" ++ str (toString sequence) ++ str "-" ++
      str (toString (nonce % 2 ^ 64))
    ({ s with turn := { s.turn with runId := id.take 63 }, sequence := sequence },
      id.length < 64)

/-- A status is dropped when it does not fit its buffer. -/
def statusEvent (size : ℕ) (text : Bytes) : List Event :=
  if 0 < text.length ∧ text.length < size then [.sageStatus text] else []

def quoted (key value : Bytes) : Bytes := str "\"" ++ key ++ str "\":\"" ++ value ++ str "\""

def object (fields : List Bytes) : Bytes :=
  str "\x7b" ++ List.intercalate (str ",") fields ++ str "\x7d"

def attemptField (s : SageTurn) : Bytes := str "\"attempt\":" ++ str (toString s.attempt)

def runningStatus (cfg : SageConfig) (s : SageTurn) : List Event :=
  statusEvent 512 (object
    [quoted (str "runId") s.runId, quoted (str "state") (sageStateName s.state),
      quoted (str "status") (str "running"), attemptField s,
      quoted (str "policyRevision") cfg.policyRevision,
      quoted (str "mode") (str (if cfg.authoritativeLoop then "authoritative" else "legacy"))])

def completedStatus (cfg : SageConfig) (s : SageTurn) (state summary : Bytes) : List Event :=
  statusEvent 640 (object
    [quoted (str "runId") s.runId, quoted (str "state") state,
      quoted (str "status") (str "completed"), attemptField s,
      quoted (str "policyRevision") cfg.policyRevision, quoted (str "summary") summary])

def legacyStatus (s : SageTurn) : List Event :=
  statusEvent 512 (object
    [quoted (str "runId") s.runId, quoted (str "state") (str "completed"),
      quoted (str "status") (str "completed"), quoted (str "mode") (str "legacy"),
      quoted (str "summary") (str "SageMath legacy phase completed.")])

/-- The text of a failed phase, with what is known about the failure. -/
def failureText (what : Bytes) (content : Option Bytes) : Bytes :=
  str "Tool error: sage " ++ what ++
    (match content with
      | some text => str ": " ++ text
      | none => []) ++ str "\n"

/-- A response outside the authoritative loop. -/
def legacyResponse (cfg : SageConfig) (s : Sage) (r : SageHttpResult) : SageCall :=
  match r.content, r.isError with
  | some content, false => ⟨s, runningStatus cfg s.turn ++ legacyStatus s.turn, content⟩
  | content, _ =>
      ⟨s, runningStatus cfg s.turn, failureText (str "legacy computation failed") content⟩

/-- A response in the authoritative loop. -/
def authoritativeResponse (cfg : SageConfig) (s : Sage) (phase : SagePhase) (r : SageHttpResult) :
    SageCall :=
  let contractV2 : Bool := r.contractVersion = some (str "sage_result_v2")
  let runMatches : Bool := r.runId = some s.turn.runId
  let ready := phase = .validate ∧ r.isReady s.turn.runId
  let responseError := r.isError || !contractV2 || !runMatches
  let after := { s with turn := s.turn.afterResult phase responseError r.flags }
  let events := runningStatus cfg s.turn
  if ready then
    ⟨{ after with finalMarkdown := r.finalMarkdown },
      events ++ [.validated r s.turn.runId] ++
        completedStatus cfg after.turn (str "ready") (str "Report SageMath validato."),
      str "Sage authoritative report ready.\n"⟩
  else if phase = .validate then
    ⟨{ after with turn := after.turn.fail (str "SAGE_RESULT_NOT_PUBLISHABLE") }, events,
      str "Tool error: SAGE_RESULT_NOT_PUBLISHABLE\n"⟩
  else
    match r.content, responseError with
    | some content, false =>
        ⟨after, events ++ completedStatus cfg after.turn (sageStateName after.turn.state)
          (str "SageMath phase completed."), content⟩
    | content, _ =>
        ⟨after, events, failureText (str "computation failed")
          (if !contractV2 then some (str "SAGE_RESULT_NOT_PUBLISHABLE")
            else if !runMatches then some (str "SAGE_RUN_ID_MISMATCH")
            else content)⟩

/-- A request that got no response. -/
def sageFailed (cfg : SageConfig) (s : Sage) (phase : SagePhase) (text : Bytes) : SageCall :=
  ⟨if cfg.authoritativeLoop then { s with turn := s.turn.afterResult phase true .none } else s,
    runningStatus cfg s.turn, text⟩

def exhaustedText (cfg : SageConfig) (code : ℤ) (output : Option Bytes) : Bytes :=
  match output with
  | some raw =>
      failureText (str "HTTP request failed" ++
        if 0 < code then str " (curl exit " ++ str (toString code) ++ str ")" else [])
        (cfg.parse raw).content
  | none =>
      if 0 < code then
        str "Tool error: sage HTTP request failed after " ++
          str (toString (sageRetryMaxAttempts - 1)) ++ str " retries (curl exit " ++
          str (toString code) ++ str ")\n"
      else str "Tool error: sage HTTP backend error (no output)\n"

/-- The call once it is admitted. -/
def sagePost (cfg : SageConfig) (world : SageWorld) (s : Sage) (phase : SagePhase) : SageCall :=
  if !world.bodyBuilt then
    ⟨{ s with turn := s.turn.fail (str "SAGE_REQUEST_ENCODING_FAILED") }, [],
      str "Tool error: sage request encoding error\n"⟩
  else if !world.bodyQuoted then ⟨s, [], str "Tool error: sage request quoting failed\n"⟩
  else
    match sageRetry world.attempts (sageRetryMaxAttempts - 1) with
    | .failed text => sageFailed cfg s phase text
    | .exhausted code output => sageFailed cfg s phase (exhaustedText cfg code output)
    | .response output =>
        if cfg.authoritativeLoop then authoritativeResponse cfg s phase (cfg.parse output)
        else legacyResponse cfg s (cfg.parse output)

/-- The task type is fixed by the first computation of a turn. -/
def noteTaskType (cfg : SageConfig) (taskType : Option Bytes) (s : Sage) : Sage :=
  if !cfg.authoritativeLoop ∨ (s.turn.executeCount = 1 ∧ s.turn.repairCount = 0 ∧
      s.turn.validationCount = 0) then
    let taskType := match taskType with
      | none | some [] => str "auto"
      | some text => text
    { s with turn := { s.turn with taskType := taskType.take 31 } }
  else s

def sageAdmitted (cfg : SageConfig) (call : ToolCall) (world : SageWorld) (s : Sage)
    (phase : SagePhase) : SageCall :=
  let s := noteTaskType cfg (toolArgValue call (str "task_type")) s
  match ensureRunId cfg world.nonce s with
  | (s, true) => sagePost cfg world s phase
  | (s, false) =>
      ⟨{ s with turn := s.turn.fail (str "SAGE_RUN_ID_UNAVAILABLE") }, [],
        str "Tool error: SAGE_RUN_ID_UNAVAILABLE\n"⟩

/-- `agent_tool_sage_via_http` -/
def toolSageViaHttp (cfg : SageConfig) (call : ToolCall) (world : SageWorld) (s : Sage) :
    SageCall :=
  match toolArgValue call (str "code") with
  | none | some [] => ⟨s, [], str "Tool error: sage requires code\n"⟩
  | some _ =>
      if cfg.prompt = none ∨ cfg.policyRevision = [] then
        ⟨s, [], str "Tool error: SAGE_POLICY_UNAVAILABLE. Run /sage start or " ++
          str "/sage-pol start before using SageMath.\n"⟩
      else if 3 ≤ s.totalCalls then
        ⟨s, [], str "FINAL: Too many sage calls already. DO NOT call sage again. " ++
          str "Use the results already obtained to produce your analysis.\n"⟩
      else if 2 ≤ s.consecutiveRounds then
        ⟨s, [], str "FINAL: Too many consecutive sage calls. DO NOT call sage again. " ++
          str "Use the results already obtained to produce your analysis.\n"⟩
      else if cfg.frontendPort ≤ 0 then
        ⟨s, [], str "Tool error: sage HTTP backend unavailable (FRONTEND_PORT not set)\n"⟩
      else
        let phase := sagePhaseNormalize (toolArgValue call (str "phase"))
        if cfg.authoritativeLoop then
          match s.turn.beforeCall phase with
          | none => ⟨s, [], str "Tool error: SAGE_PHASE_TRANSITION_INVALID\n"⟩
          | some turn =>
              let after := sageAdmitted cfg call world { s with turn := turn } phase
              { after with events := .admitted phase :: after.events }
        else sageAdmitted cfg call world s phase

end Ds4Studio.Agent
