import Ds4Studio.Evolution.Evaluator

/-!
The gate of a promotion. It collects what speaks against a candidate; only a candidate without any
hard failure is promoted or given to a person.
-/

namespace Ds4Studio.Evolution

variable {ν : Type}

/-! ### Risk -/

def Risk.rank : Risk → ℕ
  | .low => 0
  | .medium => 1
  | .high => 2
  | .critical => 3

def highestRisk (left right : Risk) : Risk := if right.rank ≤ left.rank then left else right

/-- The path goes through the modules that guard the evolution itself. -/
def isGuardPath (path : List Char) : Bool :=
  namesSegment ["security", "sandbox", "hidden-fixture", "hidden-fixtures", "evolutionEvaluator",
    "evolutionPromotionGate"] (String.ofList path)

def isEnginePath (path : List Char) : Bool :=
  (["ds4.c", "ds4.h", "ds4_rocm.", "ds4_cuda.", "ds4_metal.", "ds4_agent_runtime.",
      "ds4_server_runtime.", "rocm/", "metal/"].any fun front => front.toList <+: path) ||
    path = "Makefile".toList

def isEntryPath (path : List Char) : Bool :=
  let last := (segments path).getLastD []
  ["package.json", "package-lock.json", "index.mjs"].any (fun name => last = name.toList) ||
    ("Api.mjs".toList <:+ last &&
      last.all fun c => c ≠ '\n' && c ≠ '\r' && c.toNat ≠ 0x2028 && c.toNat ≠ 0x2029)

/-- `classifyRisk` -/
def classifyRisk (files : List String) : Risk :=
  files.foldl (fun risk file =>
    let path := file.toList.map fun c => if c = '\\' then '/' else c
    if isGuardPath path then highestRisk risk .critical
    else if isEnginePath path then highestRisk risk .high
    else if isEntryPath path then highestRisk risk .medium
    else risk) .low

/-! ### Metrics -/

/-- `candidateValue === metric.target` -/
def Property.isTarget [DecidableEq ν] (p : Property ν) (target : Value ν) : Bool :=
  match p, target with
  | .own (.number n), .number m => n = m
  | .own (.bool b), .bool c => b = c
  | .own (.string s), .string t => s = t
  | _, _ => false

structure Comparison where
  pass : Bool
  improved : Bool

/-- `compareMetric` -/
def compareMetric [DecidableEq ν] (js : Numbers ν) (metric : Metric ν)
    (baseline candidate : Property ν) : Comparison :=
  match metric.direction with
  | some .boolean | some .exact =>
      ⟨candidate.isTarget metric.target,
        candidate.isTarget metric.target && !baseline.isTarget metric.target⟩
  | direction =>
      match baseline, candidate, metric.baselineTolerance with
      | .own (.number b), .own (.number c), some tolerance =>
          if !js.finite b || !js.finite c then ⟨false, false⟩
          else if direction = some .maximize then
            ⟨js.le (js.sub b tolerance) c, !js.le c b⟩
          else ⟨js.le c (js.add b tolerance), !js.le b c⟩
      | _, _, _ => ⟨false, false⟩

/-! ### The decision -/

def isHex64 (s : List Char) : Bool :=
  s.length = 64 && s.all fun c => ('a' ≤ c && c ≤ 'f') || ('0' ≤ c && c ≤ '9')

structure RollbackArtifact where
  artifactId : String
  candidateHash : String
  parentHash : String

/-- `validRollbackArtifact` -/
def validRollbackArtifact : Option RollbackArtifact → Bool
  | none => false
  | some a =>
      "sha256:".toList <+: a.artifactId.toList && isHex64 (a.artifactId.toList.drop 7) &&
        isHex64 a.candidateHash.toList && isHex64 a.parentHash.toList

structure Candidate where
  evaluatorModified : Bool
  hiddenInformationUsed : Bool
  networkEnabled : Bool
  requiresManualReview : Bool
  files : List String
  impactRisk : Option Risk

structure SecurityPolicy where
  passed : Bool
  violations : List String

structure GateInput (ν : Type) where
  taskContract : TaskContract ν
  /-- A time of the decision that can be read. -/
  decidedAt : Option String
  baselineEvaluation : Evaluation ν
  candidateEvaluation : Evaluation ν
  candidate : Candidate
  securityPolicy : SecurityPolicy
  baselineIntegrity : Bool
  budgetExceeded : Bool
  networkAuthorization : Bool
  rollbackArtifact : Option RollbackArtifact

inductive Decision where
  | promote | reject | manualReview
deriving DecidableEq

structure GateDecision (ν : Type) where
  decision : Decision
  hardFailures : List String
  regressions : List (String × Property ν × Property ν)
  improvements : List (String × Property ν × Property ν)
  riskLevel : Risk
  requiresHuman : Bool
  rollbackArtifact : Option String
  decidedAt : Option String

def demand (holds : Bool) (failure : String) : List String := if holds then [] else [failure]

/-- What the gate holds against the results of the evaluators. -/
def evaluatorFailures (baseline : Evaluation ν) (r : EvaluatorResult ν) : List String :=
  if r.required then
    let same := match baseline.evaluators.find? fun b => b.id = r.id with
      | none => false
      | some b => b.commandHash = r.commandHash && b.environmentHash = r.environmentHash
    demand (r.status = .passed) ("REQUIRED_EVALUATOR_" ++ r.status.upper ++ ":" ++ r.id) ++
      demand (truthy r.commandHash && truthy r.environmentHash)
        ("REPRODUCIBILITY_METADATA_MISSING:" ++ r.id) ++
      demand same ("EVALUATOR_HASH_MISMATCH:" ++ r.id)
  else []

/-- What a metric of the contract adds to the failures, the regressions and the improvements. -/
structure MetricReport (ν : Type) where
  failures : List String
  regressed : Bool
  improved : Bool

def metricReport [DecidableEq ν] (js : Numbers ν) (metric : Metric ν)
    (baseline candidate : Property ν) : MetricReport ν :=
  let missing : Property ν → Bool := fun p => match p with
    | .undefined => true
    | _ => false
  if metric.required && (missing baseline || missing candidate) then
    ⟨["REQUIRED_METRIC_MISSING:" ++ metric.name], false, false⟩
  else if missing candidate then ⟨[], false, false⟩
  else
    let comparison := compareMetric js metric baseline candidate
    if !comparison.pass then
      ⟨if metric.required then ["METRIC_REGRESSION:" ++ metric.name] else [], true, false⟩
    else ⟨[], false, comparison.improved⟩

def GateInput.report [DecidableEq ν] (js : Numbers ν) (input : GateInput ν) (metric : Metric ν) :
    MetricReport ν :=
  metricReport js metric (input.baselineEvaluation.aggregateMetrics.read metric.name)
    (input.candidateEvaluation.aggregateMetrics.read metric.name)

/-- Everything that speaks against the candidate. -/
def GateInput.hardFailures [DecidableEq ν] (js : Numbers ν) (input : GateInput ν) : List String :=
  demand (truthy input.decidedAt) "DECISION_TIME_MISSING" ++
    input.candidateEvaluation.hardFailures ++
    input.candidateEvaluation.evaluators.flatMap (evaluatorFailures input.baselineEvaluation) ++
    (input.taskContract.metrics.flatMap fun m => (input.report js m).failures) ++
    demand input.baselineIntegrity "BASELINE_INTEGRITY_FAILED" ++
    demand input.securityPolicy.passed "SECURITY_POLICY_FAILED" ++
    input.securityPolicy.violations.map (fun violation => "SECURITY:" ++ violation) ++
    demand (!input.budgetExceeded) "BUDGET_EXCEEDED" ++
    demand (validRollbackArtifact input.rollbackArtifact) "ROLLBACK_ARTIFACT_MISSING" ++
    demand (!input.candidate.evaluatorModified) "EVALUATOR_TAMPER_ATTEMPT" ++
    demand (!input.candidate.hiddenInformationUsed) "HIDDEN_INFORMATION_USED" ++
    demand (!(input.candidate.networkEnabled && !input.networkAuthorization))
      "UNAUTHORIZED_NETWORK_ACCESS"

/-- The values of the metrics that a report is true of. -/
def GateInput.changes [DecidableEq ν] (js : Numbers ν) (input : GateInput ν)
    (which : MetricReport ν → Bool) : List (String × Property ν × Property ν) :=
  (input.taskContract.metrics.filter fun m => which (input.report js m)).map fun m =>
    (m.name, input.baselineEvaluation.aggregateMetrics.read m.name,
      input.candidateEvaluation.aggregateMetrics.read m.name)

/-- `decidePromotion` -/
def decidePromotion [DecidableEq ν] (js : Numbers ν) (input : GateInput ν) : GateDecision ν :=
  let failures := (input.hardFailures js).dedup
  let improvements := input.changes js MetricReport.improved
  let riskLevel :=
    highestRisk (classifyRisk input.candidate.files) (input.candidate.impactRisk.getD .low)
  let policy := input.taskContract.approvalPolicy
  let forcedHuman := input.candidate.requiresManualReview || input.candidate.networkEnabled ||
    riskLevel = .high || riskLevel = .critical
  let decision :=
    if failures ≠ [] then .reject
    else if forcedHuman ∨ policy.mode = some .manual ∨
        ¬ policy.allowedRiskLevels.contains riskLevel ∨ improvements = [] then .manualReview
    else .promote
  ⟨decision, failures.mergeSort (fun a b => a ≤ b), input.changes js MetricReport.regressed,
    improvements, riskLevel, decision = .manualReview,
    input.rollbackArtifact.map RollbackArtifact.artifactId, input.decidedAt⟩

/-- `securityPolicyFrom`: the first evaluator that is the security evaluator by its identifier or
reports the metric of one. -/
def securityPolicyFrom (evaluation : Evaluation ν) : SecurityPolicy :=
  match evaluation.evaluators.find? fun r =>
      r.id = "security-policy" || (r.metrics.own "security_passed").isSome with
  | none => ⟨false, ["SECURITY_EVALUATOR_MISSING"]⟩
  | some r =>
      let refused : Bool := match r.metrics.own "security_passed" with
        | some (.bool false) => true
        | _ => false
      ⟨r.status = .passed && !refused, r.violations⟩

end Ds4Studio.Evolution
