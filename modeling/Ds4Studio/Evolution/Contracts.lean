import Mathlib.Algebra.GroupWithZero.Nat
import Mathlib.Data.List.Dedup
import Mathlib.Order.Basic

/-!
The contract of an evolution task. A task is read as JSON; every rule that it breaks is an issue,
and a task without issues is the contract that the run works with. Only the limit on the size of
the text is left out.
-/

namespace Ds4Studio.Evolution

/-! ### Values -/

/-- What the code does with numbers; none of them is NaN. -/
structure Numbers (ν : Type) where
  finite : ν → Bool
  negative : ν → Bool
  /-- `Number.isSafeInteger`, with the integer -/
  safeInteger : ν → Option ℤ
  le : ν → ν → Bool
  add : ν → ν → ν
  sub : ν → ν → ν

inductive Value (ν : Type) where
  | null
  | bool (b : Bool)
  | number (n : ν)
  | string (s : String)
  | array (elements : List (Value ν))
  | object (members : List (String × Value ν))

variable {ν : Type}

/-- `value?.name`; what is missing is `none`. -/
def field (name : String) : Option (Value ν) → Option (Value ν)
  | some (.object members) => (members.find? fun m => m.1 = name).map Prod.snd
  | _ => none

def isTrue : Option (Value ν) → Bool
  | some (.bool true) => true
  | _ => false

/-! ### Texts -/

/-- The white space and the line ends of JavaScript. -/
def jsSpace (c : Char) : Bool :=
  let n := c.toNat
  (0x09 ≤ n && n ≤ 0x0d) || n = 0x20 || n = 0xa0 || n = 0x1680 || (0x2000 ≤ n && n ≤ 0x200a) ||
    n = 0x2028 || n = 0x2029 || n = 0x202f || n = 0x205f || n = 0x3000 || n = 0xfeff

def trim (s : String) : String :=
  String.ofList ((s.toList.dropWhile jsSpace).reverse.dropWhile jsSpace).reverse

/-- The length in code units. -/
def jsLength (s : String) : ℕ := (s.toList.map fun c => if c.toNat < 0x10000 then 1 else 2).sum

def alnum (c : Char) : Bool := ('a' ≤ c && c ≤ 'z') || ('A' ≤ c && c ≤ 'Z') || ('0' ≤ c && c ≤ '9')

/-- `SAFE_ID` -/
def safeId (s : String) : Bool :=
  match s.toList with
  | [] => false
  | c :: rest =>
      alnum c && rest.length ≤ 127 && rest.all fun c => alnum c || c = '.' || c = '_' || c = '-'

/-! ### Issues -/

structure Issue where
  code : String
  path : String
  message : String

/-- A value that has been read, with the issues found on the way. -/
abbrev Checked (α : Type) := List Issue × α

def issue (code path message : String) : List Issue := [⟨code, path, message⟩]

def check (holds : Bool) (code path message : String) : List Issue :=
  if holds then [] else issue code path message

/-- `knownKeys` -/
def knownKeys (allowed : List String) (path : String) : Option (Value ν) → List Issue
  | some (.object members) => members.flatMap fun m =>
      check (allowed.contains m.1) "UNKNOWN_FIELD"
        (if path = "" then m.1 else path ++ "." ++ m.1) "unknown field"
  | _ => issue "INVALID_TYPE" path ((if path = "" then "value" else path) ++ " must be an object")

/-- `requireString` -/
def requireString (max : ℕ) (path : String) : Option (Value ν) → Checked String
  | some (.string s) =>
      if trim s = "" ∨ max < jsLength s then
        (issue "INVALID_STRING" path
          ("must be a non-empty string no longer than " ++ toString max), "")
      else ([], trim s)
  | _ =>
      (issue "INVALID_STRING" path
        ("must be a non-empty string no longer than " ++ toString max), "")

/-! ### Paths -/

/-- The parts of a path between its slashes. -/
def segments : List Char → List (List Char)
  | [] => [[]]
  | c :: rest =>
      match segments rest with
      | [] => [[c]]
      | part :: parts => if c = '/' then [] :: part :: parts else (c :: part) :: parts

/-- The segments that are left when `.` and `..` have been resolved, the last one first. -/
def resolveSegments (aboveRoot : Bool) : List (List Char) → List (List Char) → List (List Char)
  | stack, [] => stack
  | stack, part :: rest =>
      if part = [] ∨ part = ['.'] then resolveSegments aboveRoot stack rest
      else if part = ['.', '.'] then
        match stack with
        | [] => resolveSegments aboveRoot (if aboveRoot then [part] else []) rest
        | top :: below =>
            if top = ['.', '.'] then resolveSegments aboveRoot (part :: stack) rest
            else resolveSegments aboveRoot below rest
      else resolveSegments aboveRoot (part :: stack) rest

def joinSegments (parts : List (List Char)) : List Char := ['/'].intercalate parts

/-- `path.posix.normalize` -/
def posixNormalize (s : List Char) : List Char :=
  if s = [] then ['.']
  else
    let absolute : Bool := s.head? = some '/'
    let trailing : Bool := s.getLast? = some '/'
    let resolved := joinSegments (resolveSegments (!absolute) [] (segments s)).reverse
    if resolved = [] then
      if absolute then ['/'] else if trailing then ['.', '/'] else ['.']
    else
      (if absolute then ['/'] else []) ++ resolved ++ (if trailing then ['/'] else [])

/-- `path.win32.isAbsolute` -/
def win32Absolute : List Char → Bool
  | c :: rest =>
      c = '/' || c = '\\' ||
        ((('a' ≤ c && c ≤ 'z') || ('A' ≤ c && c ≤ 'Z')) &&
          match rest with
          | ':' :: d :: _ => d = '/' || d = '\\'
          | _ => false)
  | [] => false

/-- `normalizeScopePath` -/
def normalizeScopePath (path : String) : Option (Value ν) → Checked (Option String)
  | some (.string s) =>
      if trim s = "" then
        (issue "INVALID_PATH" path "path must be a non-empty string", none)
      else if s.toList.contains '\x00' ∨ s.toList.head? = some '/' ∨ win32Absolute s.toList then
        (issue "INVALID_PATH" path "path must be relative and contain no NUL byte", none)
      else
        let p := posixNormalize (s.toList.map fun c => if c = '\\' then '/' else c)
        let p := if ['.', '/'] <+: p then p.drop 2 else p
        let p := if p.getLast? = some '/' then p.dropLast else p
        if p = [] ∨ p = ['.'] ∨ p = ['.', '.'] ∨ ['.', '.', '/'] <+: p then
          (issue "INVALID_PATH" path "path escapes or aliases the workspace root", none)
        else ([], some (String.ofList p))
  | _ => (issue "INVALID_PATH" path "path must be a non-empty string", none)

/-- A list of paths; the issues carry the place of an element. -/
def normalizePaths (path : String) (elements : List (Value ν)) : Checked (List String) :=
  let read := elements.zipIdx.map fun e =>
    normalizeScopePath (path ++ "[" ++ toString e.2 ++ "]") (some e.1)
  (read.flatMap Prod.fst, read.filterMap Prod.snd)

def scopePaths (path : String) : Option (Value ν) → Checked (List String)
  | some (.array elements) => normalizePaths path elements
  | _ => (issue "INVALID_TYPE" path "must be an array", [])

def sortedPaths (paths : List String) : List String := paths.dedup.mergeSort fun a b => a ≤ b

/-- `inScope` for one scope -/
def inside (candidate scope : String) : Bool :=
  candidate = scope || (scope ++ "/").toList <+: candidate.toList

/-- `pathOverlap` -/
def pathOverlap (left right : String) : Bool := inside left right || inside right left

/-- The segments of `path.resolve`, the last one first. -/
def resolvePath (root path : List Char) : List (List Char) :=
  if path.head? = some '/' then resolveSegments false [] (segments path)
  else resolveSegments false (resolveSegments false [] (segments root)) (segments path)

/-! ### Evaluators -/

structure EvaluatorDescriptor (ν : Type) where
  id : String
  required : Bool
  configuration : List (String × Value ν)
  hiddenPaths : List String

def EvaluatorDescriptor.type (d : EvaluatorDescriptor ν) : Option (Value ν) :=
  field "type" (some (.object d.configuration))

/-- One element of `normalizeEvaluators`, behind those whose identifiers are known. -/
def normalizeEvaluator (ids : List String) (index : ℕ) (entry : Value ν) :
    Checked (EvaluatorDescriptor ν) :=
  let path := "evaluators[" ++ toString index ++ "]"
  let id := requireString 128 (path ++ ".id") (field "id" (some entry))
  let required := field "required" (some entry)
  let isBool := match required with
    | some (.bool _) => true
    | _ => false
  let configuration := match field "configuration" (some entry) with
    | none | some .null => ([], [])
    | some (.object members) => ([], members)
    | some _ => (issue "INVALID_TYPE" (path ++ ".configuration") "must be an object", [])
  let hidden := match field "hiddenPaths" (some (.object configuration.2)) with
    | none => ([], [])
    | some (.array elements) => normalizePaths (path ++ ".configuration.hiddenPaths") elements
    | some _ =>
        (issue "INVALID_TYPE" (path ++ ".configuration.hiddenPaths") "must be an array", [])
  (knownKeys ["id", "required", "configuration"] path (some entry) ++ id.1 ++
      check (id.2 = "" || safeId id.2) "INVALID_ID" (path ++ ".id") "unsafe evaluator id" ++
      check (!ids.contains id.2) "DUPLICATE_ID" (path ++ ".id") "duplicate evaluator id" ++
      check isBool "INVALID_TYPE" (path ++ ".required") "must be boolean" ++
      configuration.1 ++ hidden.1,
    ⟨id.2, isTrue required, configuration.2, sortedPaths hidden.2⟩)

def normalizeEvaluatorsFrom (ids : List String) (index : ℕ) :
    List (Value ν) → Checked (List (EvaluatorDescriptor ν))
  | [] => ([], [])
  | entry :: rest =>
      let read := normalizeEvaluator ids index entry
      let behind := normalizeEvaluatorsFrom (read.2.id :: ids) (index + 1) rest
      (read.1 ++ behind.1, read.2 :: behind.2)

/-- `normalizeEvaluators` -/
def normalizeEvaluators : Option (Value ν) → Checked (List (EvaluatorDescriptor ν))
  | some (.array (entry :: rest)) => normalizeEvaluatorsFrom [] 0 (entry :: rest)
  | _ => (issue "MISSING_EVALUATOR" "evaluators" "at least one evaluator is required", [])

/-! ### Metrics -/

inductive Direction where
  | maximize | minimize | exact | boolean
deriving DecidableEq

def Direction.ofName : String → Option Direction
  | "maximize" => some .maximize
  | "minimize" => some .minimize
  | "exact" => some .exact
  | "boolean" => some .boolean
  | _ => none

/-- A metric that breaks no rule has a tolerance and a weight. -/
structure Metric (ν : Type) where
  name : String
  direction : Option Direction
  required : Bool
  baselineTolerance : Option ν
  target : Value ν
  weight : Option ν

def number : Option (Value ν) → Option ν
  | some (.number n) => some n
  | _ => none

/-- A number that is finite and not negative. -/
def Numbers.finiteNonNegative (js : Numbers ν) (n : Option ν) : Bool :=
  n.any fun n => js.finite n && !js.negative n

/-- One element of `normalizeMetrics`, behind those whose names are known. -/
def normalizeMetric (js : Numbers ν) (names : List String) (index : ℕ) (entry : Value ν) :
    Checked (Metric ν) :=
  let path := "metrics[" ++ toString index ++ "]"
  let name := requireString 128 (path ++ ".name") (field "name" (some entry))
  let direction := match field "direction" (some entry) with
    | some (.string s) => Direction.ofName s
    | _ => none
  let tolerance := number (field "baselineTolerance" (some entry))
  let weight := number (field "weight" (some entry))
  let required := field "required" (some entry)
  let target := field "target" (some entry)
  let isBool : Option (Value ν) → Bool := fun v => match v with
    | some (.bool _) => true
    | _ => false
  let isNull : Bool := match target with
    | some .null => true
    | _ => false
  (knownKeys ["name", "direction", "required", "baselineTolerance", "target", "weight"] path
        (some entry) ++ name.1 ++
      check (!names.contains name.2) "DUPLICATE_ID" (path ++ ".name") "duplicate metric name" ++
      check direction.isSome "MISSING_METRIC_SEMANTICS" (path ++ ".direction")
        "unknown metric direction" ++
      check (js.finiteNonNegative tolerance) "INVALID_NUMBER" (path ++ ".baselineTolerance")
        "must be a finite non-negative number" ++
      check (js.finiteNonNegative weight) "INVALID_NUMBER" (path ++ ".weight")
        "must be non-negative" ++
      check (isBool required) "INVALID_TYPE" (path ++ ".required") "must be boolean" ++
      check (!(direction = some .exact && isNull)) "MISSING_METRIC_TARGET" (path ++ ".target")
        "exact metric requires target" ++
      check (!(direction = some .boolean && !isBool target)) "MISSING_METRIC_TARGET"
        (path ++ ".target") "boolean metric requires boolean target",
    ⟨name.2, direction, isTrue required, tolerance, target.getD .null, weight⟩)

def normalizeMetricsFrom (js : Numbers ν) (names : List String) (index : ℕ) :
    List (Value ν) → Checked (List (Metric ν))
  | [] => ([], [])
  | entry :: rest =>
      let read := normalizeMetric js names index entry
      let behind := normalizeMetricsFrom js (read.2.name :: names) (index + 1) rest
      (read.1 ++ behind.1, read.2 :: behind.2)

/-- `normalizeMetrics` -/
def normalizeMetrics (js : Numbers ν) : Option (Value ν) → Checked (List (Metric ν))
  | some (.array (entry :: rest)) =>
      let read := normalizeMetricsFrom js [] 0 (entry :: rest)
      (read.1 ++ check (read.2.any Metric.required) "MISSING_REQUIRED_METRIC" "metrics"
        "at least one metric must be required", read.2)
  | _ => (issue "MISSING_METRIC_SEMANTICS" "metrics" "at least one metric is required", [])

/-! ### Budgets -/

def budgetKeysV1 : List String :=
  ["maxRevisions", "maxFilesChanged", "maxAddedLines", "maxDeletedLines",
    "maxWallTimeMsPerRevision", "maxPromptTokensPerRevision", "maxCompletionTokensPerRevision"]

def budgetKeysV2 : List String :=
  budgetKeysV1 ++
    ["maxTotalWallTimeMs", "maxTotalPromptTokens", "maxTotalCompletionTokens",
      "maxModelCallsPerRevision", "maxInfrastructureRetries", "maxEvaluatorRetries",
      "maxCriticRepairs", "maxProposerRepairs", "maxRepeatedFailureSignatures",
      "maxNoImprovementRevisions"]

/-- The budgets that are integers. -/
abbrev Budgets := List (String × ℤ)

def Budgets.get (budgets : Budgets) (key : String) : Option ℤ :=
  (budgets.find? fun b => b.1 = key).map Prod.snd

/-- `normalizeBudgets` -/
def normalizeBudgets (js : Numbers ν) (keys : List String) : Option (Value ν) → Checked Budgets
  | some (.object members) =>
      let value := fun key => (number (field key (some (.object members)))).bind js.safeInteger
      (knownKeys keys "budgets" (some (.object members)) ++ keys.flatMap fun key =>
          check ((value key).any fun n => 0 < n) "INVALID_BUDGET" ("budgets." ++ key)
              "budget must be a positive safe integer" ++
            check (!((key = "maxCriticRepairs" || key = "maxProposerRepairs") &&
                value key ≠ some 1)) "INVALID_REPAIR_BUDGET" ("budgets." ++ key)
              "exactly one schema repair is permitted",
        keys.filterMap fun key => (value key).map fun n => (key, n))
  | value => (knownKeys keys "budgets" value, [])

/-! ### Automation and approval -/

inductive Level where
  | c | d | e
deriving DecidableEq

def Level.ofName : String → Option Level
  | "C" => some .c
  | "D" => some .d
  | "E" => some .e
  | _ => none

structure Automation where
  level : Option Level
  criticEnabled : Bool
  proposerEnabled : Bool
  autoContinue : Bool
  modelProfile : String

/-- `normalizeAutomation` -/
def normalizeAutomation (allowLevelE : Bool) : Option (Value ν) → Checked Automation
  | some (.object members) =>
      let value := fun key => field key (some (.object members))
      let isBool : Option (Value ν) → Bool := fun v => match v with
        | some (.bool _) => true
        | _ => false
      let isFalse : Option (Value ν) → Bool := fun v => match v with
        | some (.bool false) => true
        | _ => false
      let level := match value "level" with
        | some (.string s) => Level.ofName s
        | _ => none
      let profile := requireString 128 "automation.modelProfile" (value "modelProfile")
      (knownKeys ["level", "criticEnabled", "proposerEnabled", "autoContinue", "modelProfile"]
            "automation" (some (.object members)) ++
          check level.isSome "INVALID_AUTOMATION_LEVEL" "automation.level" "must be C, D, or E" ++
          (["criticEnabled", "proposerEnabled", "autoContinue"].flatMap fun key =>
            check (isBool (value key)) "INVALID_TYPE" ("automation." ++ key) "must be boolean") ++
          profile.1 ++
          check (!(level = some .c &&
              (!isTrue (value "criticEnabled") || !isFalse (value "proposerEnabled"))))
            "INVALID_AUTOMATION_POLICY" "automation"
            "Level C requires Critic and forbids Proposer" ++
          check (!(level = some .d &&
              (!isTrue (value "criticEnabled") || !isTrue (value "proposerEnabled"))))
            "INVALID_AUTOMATION_POLICY" "automation" "Level D requires Critic and Proposer" ++
          check (!(level = some .e && !allowLevelE)) "LEVEL_E_DISABLED" "automation.level"
            "Level E requires a separate feature gate",
        ⟨level, isTrue (value "criticEnabled"), isTrue (value "proposerEnabled"),
          isTrue (value "autoContinue"), profile.2⟩)
  | value =>
      (knownKeys ["level", "criticEnabled", "proposerEnabled", "autoContinue", "modelProfile"]
        "automation" value, ⟨some .c, true, false, false, "default"⟩)

inductive ApprovalMode where
  | manual | autoForLowRisk | alwaysAuto
deriving DecidableEq

def ApprovalMode.ofName : String → Option ApprovalMode
  | "manual" => some .manual
  | "auto_for_low_risk" => some .autoForLowRisk
  | "always_auto" => some .alwaysAuto
  | _ => none

inductive Risk where
  | low | medium | high | critical
deriving DecidableEq

def Risk.ofName : String → Option Risk
  | "LOW" => some .low
  | "MEDIUM" => some .medium
  | "HIGH" => some .high
  | "CRITICAL" => some .critical
  | _ => none

structure ApprovalPolicy where
  mode : Option ApprovalMode
  allowedRiskLevels : List Risk

/-- `normalizeApprovalPolicy` -/
def normalizeApprovalPolicy : Option (Value ν) → Checked ApprovalPolicy
  | some (.object members) =>
      let value := fun key => field key (some (.object members))
      let mode := match value "mode" with
        | some (.string s) => ApprovalMode.ofName s
        | _ => none
      let risk : Value ν → Option Risk := fun v => match v with
        | .string s => Risk.ofName s
        | _ => none
      let levels := match value "allowedRiskLevels" with
        | some (.array elements) => (elements.all fun e => (risk e).isSome, elements.filterMap risk)
        | _ => (false, [])
      (knownKeys ["mode", "allowedRiskLevels"] "approvalPolicy" (some (.object members)) ++
          check mode.isSome "INVALID_APPROVAL_POLICY" "approvalPolicy.mode"
            "unknown approval mode" ++
          check levels.1 "INVALID_APPROVAL_POLICY" "approvalPolicy.allowedRiskLevels"
            "contains an unknown risk level",
        ⟨mode, levels.2.eraseDups⟩)
  | value =>
      (knownKeys ["mode", "allowedRiskLevels"] "approvalPolicy" value, ⟨some .manual, []⟩)

/-! ### The task -/

structure TaskContract (ν : Type) where
  v2 : Bool
  taskId : String
  title : String
  objective : String
  /-- The segments of the root, the last one first. -/
  workspaceRoot : List (List Char)
  mutablePaths : List String
  immutablePaths : List String
  baselineRef : String
  evaluators : List (EvaluatorDescriptor ν)
  metrics : List (Metric ν)
  budgets : Budgets
  approvalPolicy : ApprovalPolicy
  automation : Option Automation

/-- The evaluator is a security evaluator by its identifier or by its type. -/
def EvaluatorDescriptor.isSecurity (d : EvaluatorDescriptor ν) : Bool :=
  d.id = "security-policy" ||
    match d.type with
    | some (.string s) => s = "security-policy"
    | _ => false

/-- The metric that every task has to require. -/
def Metric.isSecurityPassed (m : Metric ν) : Bool :=
  m.name = "security_passed" && m.direction = some .boolean && m.required &&
    match m.target with
    | .bool b => b
    | _ => false

def lowerCase (s : List Char) : List Char :=
  s.map fun c => if 'A' ≤ c ∧ c ≤ 'Z' then Char.ofNat (c.toNat + 32) else c

/-- A segment of the path is one of the words, or goes on behind it with a dot. -/
def namesSegment (words : List String) (path : String) : Bool :=
  (segments path.toList).any fun part => words.any fun word =>
    lowerCase part = lowerCase word.toList ||
      lowerCase word.toList ++ ['.'] <+: lowerCase part

/-- `SECURITY_IMMUTABLE_PATTERNS` -/
def securityImmutable : List (String × List String) :=
  [("/(^|\\/)evolutionEvaluator(\\/|\\.|$)/i", ["evolutionEvaluator"]),
    ("/(^|\\/)evolutionPromotionGate(\\/|\\.|$)/i", ["evolutionPromotionGate"]),
    ("/(^|\\/)evolutionPromotion(\\/|\\.|$)/i", ["evolutionPromotion"]),
    ("/(^|\\/)hidden-fixtures?(\\/|\\.|$)/i", ["hidden-fixture", "hidden-fixtures"])]

def taskKeysV1 : List String :=
  ["contractVersion", "taskId", "title", "objective", "workspaceRoot", "mutablePaths",
    "immutablePaths", "baselineRef", "evaluators", "metrics", "budgets", "approvalPolicy"]

/-- The version of a task: known or not, and whether it is the second one. -/
def taskVersion : Option (Value ν) → Bool × Bool
  | some (.string s) =>
      (s = "ds4_evolution_task_v1" || s = "ds4_evolution_task_v2", s = "ds4_evolution_task_v2")
  | _ => (false, false)

def workspaceRootOf (root : List Char) : Option (Value ν) → Checked (List (List Char))
  | some (.string s) =>
      if trim s = "" then
        (issue "INVALID_PATH" "workspaceRoot" "workspaceRoot is required", [])
      else
        let resolved := resolvePath root s.toList
        (check ((resolvePath ['/'] root).reverse <+: resolved.reverse) "WORKSPACE_ROOT_ESCAPE"
          "workspaceRoot" "workspaceRoot escapes repositoryRoot", resolved)
  | _ => (issue "INVALID_PATH" "workspaceRoot" "workspaceRoot is required", [])

/-- `validateEvolutionTask` -/
def validateEvolutionTask (js : Numbers ν) (repositoryRoot : List Char) (allowLevelE : Bool)
    (input : Value ν) : Checked (TaskContract ν) :=
  let value := fun key => field key (some input)
  let version := taskVersion (value "contractVersion")
  let v2 := version.2
  let taskId := requireString 128 "taskId" (value "taskId")
  let title := requireString 500 "title" (value "title")
  let objective := requireString 20000 "objective" (value "objective")
  let baselineRef := requireString 500 "baselineRef" (value "baselineRef")
  let workspaceRoot := workspaceRootOf repositoryRoot (value "workspaceRoot")
  let mutablePaths := scopePaths "mutablePaths" (value "mutablePaths")
  let immutablePaths := scopePaths "immutablePaths" (value "immutablePaths")
  let evaluators := normalizeEvaluators (value "evaluators")
  let metrics := normalizeMetrics js (value "metrics")
  let budgets :=
    normalizeBudgets js (if v2 then budgetKeysV2 else budgetKeysV1) (value "budgets")
  let approvalPolicy := normalizeApprovalPolicy (value "approvalPolicy")
  let automation :=
    if v2 then
      let read := normalizeAutomation allowLevelE (value "automation")
      (read.1, some read.2)
    else ([], none)
  (knownKeys (if v2 then taskKeysV1 ++ ["automation"] else taskKeysV1) "" (some input) ++
      check version.1 "UNSUPPORTED_CONTRACT_VERSION" "contractVersion"
        "unsupported contractVersion" ++
      taskId.1 ++ check (taskId.2 = "" || safeId taskId.2) "INVALID_ID" "taskId" "unsafe taskId" ++
      title.1 ++ objective.1 ++ baselineRef.1 ++ workspaceRoot.1 ++
      mutablePaths.1 ++ immutablePaths.1 ++
      check (!mutablePaths.2.isEmpty) "EMPTY_MUTABLE_SCOPE" "mutablePaths"
        "at least one mutable path is required" ++
      (mutablePaths.2.flatMap fun left => immutablePaths.2.flatMap fun right =>
        check (!pathOverlap left right) "PATH_SCOPE_CONFLICT" "mutablePaths"
          (left ++ " overlaps immutable path " ++ right)) ++
      evaluators.1 ++
      (evaluators.2.zipIdx.flatMap fun e => e.1.hiddenPaths.flatMap fun hidden =>
        check (immutablePaths.2.any (inside hidden)) "HIDDEN_PATH_NOT_IMMUTABLE"
          ("evaluators[" ++ toString e.2 ++ "].configuration.hiddenPaths")
          (hidden ++ " must be contained by immutablePaths")) ++
      metrics.1 ++ budgets.1 ++ approvalPolicy.1 ++ automation.1 ++
      check (!(v2 && approvalPolicy.2.mode ≠ some .manual)) "INVALID_APPROVAL_POLICY"
        "approvalPolicy.mode" "Level C/D promotion must remain manual" ++
      check (evaluators.2.any EvaluatorDescriptor.isSecurity) "MISSING_SECURITY_EVALUATOR"
        "evaluators"
        ("task must include a security evaluator " ++
          "(id: security-policy or configuration.type: security-policy)") ++
      check (metrics.2.any Metric.isSecurityPassed) "MISSING_SECURITY_PASSED_METRIC" "metrics"
        "task must include a required boolean metric 'security_passed' with target true" ++
      (securityImmutable.flatMap fun pattern =>
        check (!mutablePaths.2.any (namesSegment pattern.2)) "MUTABLE_SECURITY_PATH" "mutablePaths"
          (pattern.1 ++
            " matches a path that must be immutable for security contract enforcement")),
    ⟨v2, taskId.2, title.2, objective.2, workspaceRoot.2, sortedPaths mutablePaths.2,
      sortedPaths immutablePaths.2, baselineRef.2, evaluators.2, metrics.2, budgets.2, approvalPolicy.2,
      automation.2⟩)

/-- The input breaks no rule, and this is its contract. -/
def Accepted (js : Numbers ν) (repositoryRoot : List Char) (allowLevelE : Bool) (input : Value ν)
    (contract : TaskContract ν) : Prop :=
  validateEvolutionTask js repositoryRoot allowLevelE input = ([], contract)

theorem check_eq_nil {holds : Bool} {code path message : String}
    (h : check holds code path message = []) : holds = true := by
  unfold check issue at h
  split at h
  case isTrue hholds => exact hholds
  case isFalse => cases h

/-- The parts of an accepted task that the run works with. -/
structure AcceptedParts (js : Numbers ν) (allowLevelE : Bool) (input : Value ν)
    (contract : TaskContract ν) : Prop where
  evaluators : normalizeEvaluators (field "evaluators" (some input)) = ([], contract.evaluators)
  metrics : normalizeMetrics js (field "metrics" (some input)) = ([], contract.metrics)
  budgets : normalizeBudgets js (if contract.v2 then budgetKeysV2 else budgetKeysV1)
    (field "budgets" (some input)) = ([], contract.budgets)
  automation : (if contract.v2 then
      ((normalizeAutomation allowLevelE (field "automation" (some input))).1,
        some (normalizeAutomation allowLevelE (field "automation" (some input))).2)
    else ([], none)) = (([] : List Issue), contract.automation)
  security : contract.evaluators.any EvaluatorDescriptor.isSecurity = true
  securityPassed : contract.metrics.any Metric.isSecurityPassed = true

theorem Accepted.parts {js : Numbers ν} {root : List Char} {allowLevelE : Bool} {input : Value ν}
    {contract : TaskContract ν} (h : Accepted js root allowLevelE input contract) :
    AcceptedParts js allowLevelE input contract := by
  obtain ⟨hissues, rfl⟩ := Prod.mk.inj h
  simp only [List.append_eq_nil_iff] at hissues
  obtain ⟨⟨⟨⟨⟨hread, hautomation⟩, -⟩, hsecurity⟩, hpassed⟩, -⟩ := hissues
  obtain ⟨⟨⟨⟨⟨-, hevaluators⟩, -⟩, hmetrics⟩, hbudgets⟩, -⟩ := hread
  exact ⟨Prod.ext hevaluators rfl, Prod.ext hmetrics rfl, Prod.ext hbudgets rfl,
    Prod.ext hautomation rfl, check_eq_nil hsecurity, check_eq_nil hpassed⟩

end Ds4Studio.Evolution
