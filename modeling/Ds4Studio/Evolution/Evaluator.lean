import Ds4Studio.Evolution.Contracts

/-!
The evaluation of a candidate. Every evaluator of the contract answers through its adapter; an
answer that cannot be used counts as an error, and the first value of a metric is the one that
counts.
-/

namespace Ds4Studio.Evolution

open List

/-! ### Metrics -/

inductive MetricValue (ν : Type) where
  | number (n : ν)
  | bool (b : Bool)
  | string (s : String)
deriving DecidableEq

/-- What an adapter reports under a name. -/
inductive RawMetric (ν : Type) where
  | value (v : MetricValue ν)
  | other

/-- A plain object that holds metrics. -/
abbrev Metrics (ν : Type) := List (String × MetricValue ν)

variable {ν : Type}

/-- The own property of the object. -/
def Metrics.own (metrics : Metrics ν) (name : String) : Option (MetricValue ν) :=
  (metrics.find? fun m => m.1 = name).map Prod.snd

/-- The assignment of a property. Assigning to `__proto__` sets no property. -/
def Metrics.set (name : String) (v : MetricValue ν) (metrics : Metrics ν) : Metrics ν :=
  if name = "__proto__" then metrics
  else if (metrics.own name).isSome then
    metrics.map fun m => if m.1 = name then (name, v) else m
  else metrics ++ [(name, v)]

/-- The names that every plain object inherits. -/
def inheritedNames : List String :=
  ["constructor", "__defineGetter__", "__defineSetter__", "hasOwnProperty", "__lookupGetter__",
    "__lookupSetter__", "isPrototypeOf", "propertyIsEnumerable", "toString", "valueOf",
    "__proto__", "toLocaleString"]

/-- What reading a property finds. -/
inductive Property (ν : Type) where
  | undefined
  | inherited
  | own (v : MetricValue ν)

def Metrics.read (metrics : Metrics ν) (name : String) : Property ν :=
  match metrics.own name with
  | some v => .own v
  | none => if inheritedNames.contains name then .inherited else .undefined

/-! ### Results -/

inductive ResultStatus where
  | passed | failed | error | partial_
deriving DecidableEq

/-- `status.toUpperCase()` -/
def ResultStatus.upper : ResultStatus → String
  | .passed => "PASSED"
  | .failed => "FAILED"
  | .error => "ERROR"
  | .partial_ => "PARTIAL"

structure EvaluatorResult (ν : Type) where
  id : String
  status : ResultStatus
  required : Bool
  metrics : Metrics ν
  violations : List String
  commandHash : Option String
  environmentHash : Option String

/-- What an adapter returns. -/
structure RawResult (ν : Type) where
  status : Option ResultStatus
  metrics : List (String × RawMetric ν)
  violations : List String
  commandHash : Option String
  environmentHash : Option String

/-- What becomes of the call of an adapter: it does not exist, it throws, it returns something that
has not the form of a result, or it returns one. -/
inductive Answer (ν : Type) where
  | unavailable
  | threw (code : Option String)
  | malformed
  | returned (raw : RawResult ν)

/-- `normalizeMetricValue` -/
def normalizeMetricValue (js : Numbers ν) : RawMetric ν → Option (MetricValue ν)
  | .value (.number n) => if js.finite n then some (.number n) else none
  | .value v => some v
  | .other => none

def normalizeMetricValues (js : Numbers ν) :
    List (String × RawMetric ν) → Metrics ν → Option (Metrics ν)
  | [], metrics => some metrics
  | (name, raw) :: rest, metrics =>
      match normalizeMetricValue js raw with
      | none => none
      | some v => normalizeMetricValues js rest (metrics.set name v)

/-- A result without a metric that stands for one that cannot be used. -/
def errorResult (d : EvaluatorDescriptor ν) (code : String) : EvaluatorResult ν :=
  ⟨d.id, .error, d.required, [], [code], none, none⟩

/-- `normalizeEvaluatorResult`, with the results that stand for an adapter without one. -/
def resultOf (js : Numbers ν) (d : EvaluatorDescriptor ν) : Answer ν → EvaluatorResult ν
  | .unavailable => errorResult d "EVALUATOR_ADAPTER_UNAVAILABLE"
  | .threw code => errorResult d (code.getD "EVALUATOR_INFRASTRUCTURE_ERROR")
  | .malformed => errorResult d "INVALID_EVALUATOR_RESULT"
  | .returned raw =>
      match raw.status with
      | none => errorResult d "INVALID_EVALUATOR_RESULT"
      | some status =>
          match normalizeMetricValues js raw.metrics [] with
          | none => errorResult d "INVALID_METRIC_VALUE"
          | some metrics =>
              ⟨d.id, status, d.required, metrics, raw.violations, raw.commandHash,
                raw.environmentHash⟩

/-! ### All evaluators -/

structure Evaluation (ν : Type) where
  evaluators : List (EvaluatorResult ν)
  aggregateMetrics : Metrics ν
  hardFailures : List String

/-- A text that is there and not empty. -/
def truthy (s : Option String) : Bool := s.any fun t => t ≠ ""

/-- One metric of a result on top of those that count already. -/
def addMetric [DecidableEq ν] (e : Evaluation ν) (m : String × MetricValue ν) : Evaluation ν :=
  match e.aggregateMetrics.own m.1 with
  | some v =>
      if v ≠ m.2 then { e with hardFailures := e.hardFailures ++ ["METRIC_CONFLICT:" ++ m.1] }
      else { e with aggregateMetrics := e.aggregateMetrics.set m.1 m.2 }
  | none => { e with aggregateMetrics := e.aggregateMetrics.set m.1 m.2 }

/-- The failures of one result, but for its metrics. -/
def resultFailures (r : EvaluatorResult ν) : List String :=
  (if r.required ∧ r.status ≠ .passed then
      ["REQUIRED_EVALUATOR_" ++ r.status.upper ++ ":" ++ r.id]
    else []) ++
  (if r.required ∧ ¬ (truthy r.commandHash ∧ truthy r.environmentHash) then
      ["REPRODUCIBILITY_METADATA_MISSING:" ++ r.id]
    else [])

def addResult [DecidableEq ν] (e : Evaluation ν) (r : EvaluatorResult ν) : Evaluation ν :=
  r.metrics.foldl addMetric
    { e with
      evaluators := e.evaluators ++ [r]
      hardFailures := e.hardFailures ++ resultFailures r }

/-- `EvolutionEvaluatorRegistry.evaluateAll` -/
def evaluateAll [DecidableEq ν] (js : Numbers ν) (contract : TaskContract ν)
    (answer : EvaluatorDescriptor ν → Answer ν) : Evaluation ν :=
  (contract.evaluators.map fun d => resultOf js d (answer d)).foldl addResult ⟨[], [], []⟩

/-- The status of an evaluation. -/
def Evaluation.status (e : Evaluation ν) : ResultStatus :=
  let required := e.evaluators.filter EvaluatorResult.required
  if required.any fun r => r.status = .error then .error
  else if required.any fun r => r.status ≠ .passed then .failed
  else if e.evaluators.any fun r => !r.required && r.status ≠ .passed then .partial_
  else .passed

/-! ### The values that count -/

variable (metrics : Metrics ν)

theorem Metrics.own_append (name k : String) (v : MetricValue ν) :
    Metrics.own (metrics ++ [(name, v)]) k =
      match metrics.own k with
      | some w => some w
      | none => if name = k then some v else none := by
  unfold own
  rw [find?_append]
  cases hfind : metrics.find? (fun m => m.1 = k) with
  | some m => rfl
  | none => by_cases hname : name = k <;> simp [hname]

theorem Metrics.own_map (name k : String) (v : MetricValue ν) :
    Metrics.own (metrics.map fun m => if m.1 = name then (name, v) else m) k =
      if name = k then (metrics.own k).map fun _ => v else metrics.own k := by
  unfold own
  induction metrics with
  | nil => simp
  | cons m rest ih =>
    by_cases hm : m.1 = k
    · by_cases hname : name = k
      · simp [hm, hname]
      · have hne : ¬ k = name := fun h => hname h.symm
        simp [hm, hname, hne]
    · by_cases hmn : m.1 = name
      · have hne : ¬ name = k := fun h => hm (hmn.trans h)
        simp only [map_cons, hmn, if_true, find?_cons, hne, decide_false]
        simpa [hne] using ih
      · simp only [map_cons, hmn, if_false, find?_cons, hm, decide_false]
        simpa using ih

/-- A property that can be set is found with its value, and no other changes. -/
theorem Metrics.own_set {name : String} (hname : name ≠ "__proto__") (v : MetricValue ν)
    (metrics : Metrics ν) (k : String) :
    (metrics.set name v).own k = if name = k then some v else metrics.own k := by
  unfold set
  rw [if_neg hname]
  by_cases hk : name = k
  · subst hk
    cases hown : metrics.own name with
    | some w => simp [Metrics.own_map, hown]
    | none => simp [Metrics.own_append, hown]
  · split
    · rw [Metrics.own_map, if_neg hk]
    · rw [Metrics.own_append]
      cases metrics.own k <;> simp [hk]

section

variable [DecidableEq ν] {e : Evaluation ν}

/-- Adding a metric without a conflict keeps the values that are there. -/
theorem addMetric_spec {m : String × MetricValue ν} (h : (addMetric e m).hardFailures = []) :
    e.hardFailures = [] ∧
      (∀ k v, e.aggregateMetrics.own k = some v → (addMetric e m).aggregateMetrics.own k = some v) ∧
      (m.1 ≠ "__proto__" → (addMetric e m).aggregateMetrics.own m.1 = some m.2) := by
  have hset : ∀ k v, (m.1 = k → some m.2 = some v) → e.aggregateMetrics.own k = some v →
      (e.aggregateMetrics.set m.1 m.2).own k = some v := by
    intro k v hsame hown
    by_cases hproto : m.1 = "__proto__"
    · unfold Metrics.set
      rw [if_pos hproto]
      exact hown
    · rw [Metrics.own_set hproto]
      split
      case isTrue hk => exact hsame hk
      case isFalse => exact hown
  unfold addMetric at h ⊢
  cases hown : e.aggregateMetrics.own m.1 with
  | none =>
    simp only [hown] at h ⊢
    refine ⟨h, fun k v hk => hset k v (fun hname => ?_) hk, fun hproto => ?_⟩
    · rw [← hname, hown] at hk
      cases hk
    · rw [Metrics.own_set hproto, if_pos rfl]
  | some w =>
    simp only [hown] at h ⊢
    by_cases hw : w = m.2
    · rw [if_neg (not_not.mpr hw)] at h ⊢
      refine ⟨h, fun k v hk => hset k v (fun hname => ?_) hk, fun hproto => ?_⟩
      · rw [← hname, hown, hw] at hk
        exact hk
      · rw [Metrics.own_set hproto, if_pos rfl]
    · rw [if_pos hw] at h
      simp at h

theorem addMetrics_spec {ms : Metrics ν} (h : (ms.foldl addMetric e).hardFailures = []) :
    e.hardFailures = [] ∧
      (∀ k v, e.aggregateMetrics.own k = some v →
        (ms.foldl addMetric e).aggregateMetrics.own k = some v) ∧
      (∀ m ∈ ms, m.1 ≠ "__proto__" →
        (ms.foldl addMetric e).aggregateMetrics.own m.1 = some m.2) := by
  induction ms generalizing e with
  | nil => exact ⟨h, fun _ _ hk => hk, nofun⟩
  | cons m rest ih =>
    obtain ⟨hrest, hkeep, hmem⟩ := ih h
    obtain ⟨he, hstep, hadd⟩ := addMetric_spec hrest
    refine ⟨he, fun k v hk => hkeep k v (hstep k v hk), fun n hn hproto => ?_⟩
    rcases mem_cons.mp hn with rfl | hn
    · exact hkeep _ _ (hadd hproto)
    · exact hmem n hn hproto

theorem addMetrics_evaluators (ms : Metrics ν) (e : Evaluation ν) :
    (ms.foldl addMetric e).evaluators = e.evaluators := by
  induction ms generalizing e with
  | nil => rfl
  | cons m rest ih =>
    rw [foldl_cons, ih]
    unfold addMetric
    split
    · split <;> rfl
    · rfl

theorem addResults_evaluators (rs : List (EvaluatorResult ν)) (e : Evaluation ν) :
    (rs.foldl addResult e).evaluators = e.evaluators ++ rs := by
  induction rs generalizing e with
  | nil => exact (append_nil _).symm
  | cons r rest ih =>
    rw [foldl_cons, ih]
    unfold addResult
    rw [addMetrics_evaluators, append_assoc]
    rfl

theorem addResults_spec {rs : List (EvaluatorResult ν)}
    (h : (rs.foldl addResult e).hardFailures = []) :
    e.hardFailures = [] ∧
      (∀ k v, e.aggregateMetrics.own k = some v →
        (rs.foldl addResult e).aggregateMetrics.own k = some v) ∧
      (∀ r ∈ rs, ∀ k v, k ≠ "__proto__" → r.metrics.own k = some v →
        (rs.foldl addResult e).aggregateMetrics.own k = some v) := by
  induction rs generalizing e with
  | nil => exact ⟨h, fun _ _ hk => hk, nofun⟩
  | cons r rest ih =>
    obtain ⟨hrest, hkeep, hmem⟩ := ih h
    obtain ⟨he, hstep, hadd⟩ := addMetrics_spec hrest
    obtain ⟨he, -⟩ := append_eq_nil_iff.mp he
    refine ⟨he, fun k v hk => hkeep k v (hstep k v hk), fun s hs k v hproto hk => ?_⟩
    rcases mem_cons.mp hs with rfl | hs
    · obtain ⟨m, hfind, rfl⟩ := Option.map_eq_some_iff.mp hk
      have hname : m.1 = k := by simpa using find?_some hfind
      exact hkeep _ _ (hname ▸ hadd m (mem_of_find?_eq_some hfind) (hname ▸ hproto))
    · exact hmem s hs k v hproto hk

theorem evaluateAll_evaluators (js : Numbers ν) (contract : TaskContract ν)
    (answer : EvaluatorDescriptor ν → Answer ν) :
    (evaluateAll js contract answer).evaluators =
      contract.evaluators.map fun d => resultOf js d (answer d) :=
  addResults_evaluators _ _

/-- Without a conflict every value that an evaluator reports is the one that counts. -/
theorem evaluateAll_own {js : Numbers ν} {contract : TaskContract ν}
    {answer : EvaluatorDescriptor ν → Answer ν}
    (h : (evaluateAll js contract answer).hardFailures = []) {d : EvaluatorDescriptor ν}
    (hd : d ∈ contract.evaluators) {k : String} {v : MetricValue ν} (hproto : k ≠ "__proto__")
    (hk : (resultOf js d (answer d)).metrics.own k = some v) :
    (evaluateAll js contract answer).aggregateMetrics.own k = some v :=
  (addResults_spec h).2.2 _ (mem_map_of_mem hd) k v hproto hk

end

variable (js : Numbers ν) (d : EvaluatorDescriptor ν) (answer : Answer ν)

@[simp]
theorem resultOf_id : (resultOf js d answer).id = d.id := by
  unfold resultOf
  repeat' split
  all_goals rfl

@[simp]
theorem resultOf_required : (resultOf js d answer).required = d.required := by
  unfold resultOf
  repeat' split
  all_goals rfl

/-! ### The metrics that an evaluation has -/

theorem Metrics.own_isSome (k : String) :
    (metrics.own k).isSome = true ↔ ∃ m ∈ metrics, m.1 = k := by
  unfold own
  simp

theorem Metrics.own_set_proto (name : String) (v : MetricValue ν) (metrics : Metrics ν) :
    (metrics.set name v).own "__proto__" = metrics.own "__proto__" := by
  by_cases hname : name = "__proto__"
  · unfold set
    rw [if_pos hname]
  · rw [Metrics.own_set hname, if_neg hname]

theorem normalizeMetricValues_proto {js : Numbers ν} {raws : List (String × RawMetric ν)}
    {acc metrics : Metrics ν} (h : normalizeMetricValues js raws acc = some metrics) :
    metrics.own "__proto__" = acc.own "__proto__" := by
  induction raws generalizing acc with
  | nil =>
    cases h
    rfl
  | cons raw rest ih =>
    unfold normalizeMetricValues at h
    split at h
    case h_1 => cases h
    case h_2 v _ => rw [ih h, Metrics.own_set_proto]

theorem resultOf_proto : (resultOf js d answer).metrics.own "__proto__" = none := by
  unfold resultOf
  split
  case h_1 => rfl
  case h_2 => rfl
  case h_3 => rfl
  case h_4 =>
    split
    case h_1 => rfl
    case h_2 =>
      split
      case h_1 => rfl
      case h_2 metrics hmetrics => exact normalizeMetricValues_proto hmetrics

section

variable [DecidableEq ν]

theorem addMetric_isSome (e : Evaluation ν) (m : String × MetricValue ν) (k : String) :
    ((addMetric e m).aggregateMetrics.own k).isSome = true ↔
      (e.aggregateMetrics.own k).isSome = true ∨ (m.1 = k ∧ k ≠ "__proto__") := by
  have hset : ((e.aggregateMetrics.set m.1 m.2).own k).isSome = true ↔
      (e.aggregateMetrics.own k).isSome = true ∨ (m.1 = k ∧ k ≠ "__proto__") := by
    by_cases hproto : m.1 = "__proto__"
    · unfold Metrics.set
      rw [if_pos hproto]
      refine ⟨.inl, ?_⟩
      rintro (h | ⟨rfl, hk⟩)
      · exact h
      · exact absurd hproto hk
    · rw [Metrics.own_set hproto]
      split
      case isTrue hk => simp [hk, hk ▸ hproto]
      case isFalse hk => simp [hk]
  unfold addMetric
  split
  case h_1 v hv =>
    split
    case isTrue =>
      refine ⟨.inl, ?_⟩
      rintro (h | ⟨rfl, -⟩)
      · exact h
      · rw [hv]
        rfl
    case isFalse => exact hset
  case h_2 => exact hset

theorem addMetrics_isSome (ms : Metrics ν) (e : Evaluation ν) (k : String) :
    ((ms.foldl addMetric e).aggregateMetrics.own k).isSome = true ↔
      (e.aggregateMetrics.own k).isSome = true ∨
        ((ms.own k).isSome = true ∧ k ≠ "__proto__") := by
  induction ms generalizing e with
  | nil => simp [Metrics.own]
  | cons m rest ih =>
    rw [foldl_cons, ih, addMetric_isSome e m k, Metrics.own_isSome rest,
      Metrics.own_isSome (m :: rest), exists_mem_cons_iff, or_assoc, or_and_right]

theorem addResults_isSome (rs : List (EvaluatorResult ν)) (e : Evaluation ν) (k : String) :
    ((rs.foldl addResult e).aggregateMetrics.own k).isSome = true ↔
      (e.aggregateMetrics.own k).isSome = true ∨
        ∃ r ∈ rs, (r.metrics.own k).isSome = true ∧ k ≠ "__proto__" := by
  induction rs generalizing e with
  | nil => simp
  | cons r rest ih =>
    rw [foldl_cons, ih, exists_mem_cons_iff, ← or_assoc]
    unfold addResult
    rw [addMetrics_isSome]

theorem evaluateAll_isSome (js : Numbers ν) (contract : TaskContract ν)
    (answer : EvaluatorDescriptor ν → Answer ν) (k : String) :
    ((evaluateAll js contract answer).aggregateMetrics.own k).isSome = true ↔
      ∃ d ∈ contract.evaluators, ((resultOf js d (answer d)).metrics.own k).isSome = true := by
  unfold evaluateAll
  rw [addResults_isSome]
  constructor
  · rintro (h | ⟨r, hr, hown, -⟩)
    · cases h
    · obtain ⟨d, hd, rfl⟩ := mem_map.mp hr
      exact ⟨d, hd, hown⟩
  · rintro ⟨d, hd, hown⟩
    refine .inr ⟨_, mem_map_of_mem hd, hown, ?_⟩
    rintro rfl
    rw [resultOf_proto] at hown
    cases hown

end

end Ds4Studio.Evolution
