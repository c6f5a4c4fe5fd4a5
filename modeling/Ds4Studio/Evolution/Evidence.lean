import Ds4Studio.Evolution.PromotionGate

/-!
What a candidate has shown when the gate lets it pass. The gate looks for a security evaluator by
the metric it reports, and reads metrics as properties that every object may inherit.
-/

namespace Ds4Studio.Evolution

open List

variable {ν : Type}

/-! ### Accepted contracts -/

theorem normalizeEvaluatorsFrom_ids {ids : List String} {index : ℕ} {entries : List (Value ν)}
    (h : (normalizeEvaluatorsFrom ids index entries).1 = []) :
    ((normalizeEvaluatorsFrom ids index entries).2.map EvaluatorDescriptor.id).Nodup ∧
      ∀ d ∈ (normalizeEvaluatorsFrom ids index entries).2, d.id ∉ ids := by
  induction entries generalizing ids index with
  | nil => exact ⟨nodup_nil, nofun⟩
  | cons entry rest ih =>
    unfold normalizeEvaluatorsFrom at h ⊢
    obtain ⟨hentry, hrest⟩ := append_eq_nil_iff.mp h
    obtain ⟨hnodup, hnew⟩ := ih hrest
    have hid : (normalizeEvaluator ids index entry).2.id ∉ ids := by
      unfold normalizeEvaluator at hentry ⊢
      simp only [append_eq_nil_iff] at hentry
      have hunique := check_eq_nil hentry.1.1.1.2
      simpa using hunique
    refine ⟨?_, fun d hd => ?_⟩
    · rw [map_cons, nodup_cons]
      refine ⟨fun hmem => ?_, hnodup⟩
      obtain ⟨d, hd, heq⟩ := mem_map.mp hmem
      exact hnew d hd (heq ▸ mem_cons_self)
    · rcases mem_cons.mp hd with rfl | hd
      · exact hid
      · exact fun hmem => hnew d hd (mem_cons_of_mem _ hmem)

/-- What an accepted contract promises the gate. -/
structure GateContract (contract : TaskContract ν) : Prop where
  ids : (contract.evaluators.map EvaluatorDescriptor.id).Nodup
  securityPassed : ∃ m ∈ contract.metrics, m.isSecurityPassed = true

theorem Accepted.gate {js : Numbers ν} {root : List Char} {allowLevelE : Bool} {input : Value ν}
    {contract : TaskContract ν} (h : Accepted js root allowLevelE input contract) :
    GateContract contract := by
  obtain ⟨hevaluators, -, -, -, -, hpassed⟩ := h.parts
  refine ⟨?_, any_eq_true.mp hpassed⟩
  have hread : (normalizeEvaluators (field "evaluators" (some input))).1 = [] := by rw [hevaluators]
  have hcontract : (normalizeEvaluators (field "evaluators" (some input))).2 =
      contract.evaluators := by
    rw [hevaluators]
  rw [← hcontract]
  unfold normalizeEvaluators at hread ⊢
  split at hread
  case h_1 => exact (normalizeEvaluatorsFrom_ids hread).1
  case h_2 => cases hread

/-! ### Evidence -/

/-- The candidate's value of a metric is good enough beside the baseline's. -/
def Meets [DecidableEq ν] (js : Numbers ν) (m : Metric ν) (baseline candidate : MetricValue ν) :
    Prop :=
  match m.direction with
  | some .boolean | some .exact => (Property.own candidate).isTarget m.target = true
  | some .maximize => ∃ b c tolerance, baseline = .number b ∧ candidate = .number c ∧
      m.baselineTolerance = some tolerance ∧ js.le (js.sub b tolerance) c = true
  | _ => ∃ b c tolerance, baseline = .number b ∧ candidate = .number c ∧
      m.baselineTolerance = some tolerance ∧ js.le c (js.add b tolerance) = true

/-- The evaluator ran and passed, as it was run on the baseline. -/
def PassedAlike (baseline candidate : Evaluation ν) (id : String) : Prop :=
  ∃ r ∈ candidate.evaluators, ∃ b ∈ baseline.evaluators, r.id = id ∧ b.id = id ∧
    r.status = .passed ∧ truthy r.commandHash = true ∧ truthy r.environmentHash = true ∧
    b.commandHash = r.commandHash ∧ b.environmentHash = r.environmentHash

/-- The evaluator passed and says that the candidate is secure. -/
def PassedSecure (candidate : Evaluation ν) (id : String) : Prop :=
  ∃ r ∈ candidate.evaluators, r.id = id ∧ r.status = .passed ∧
    r.metrics.own "security_passed" = some (.bool true)

structure Evidence [DecidableEq ν] (js : Numbers ν) (contract : TaskContract ν)
    (baseline candidate : Evaluation ν) : Prop where
  evaluators : ∀ d ∈ contract.evaluators, d.required = true → PassedAlike baseline candidate d.id
  metrics : ∀ m ∈ contract.metrics, m.required = true → ∃ v w,
    baseline.aggregateMetrics.own m.name = some v ∧
      candidate.aggregateMetrics.own m.name = some w ∧ Meets js m v w
  security : ∀ d ∈ contract.evaluators, d.isSecurity = true → PassedSecure candidate d.id

/-- Every security evaluator reports its metric, and passes if it is not required; a required metric
whose name all objects inherit is reported on the baseline. -/
structure Reported (js : Numbers ν) (contract : TaskContract ν)
    (onBaseline onCandidate : EvaluatorDescriptor ν → Answer ν) : Prop where
  security : ∀ d ∈ contract.evaluators, d.isSecurity = true →
    ((resultOf js d (onCandidate d)).metrics.own "security_passed").isSome = true ∧
      (d.required = false → (resultOf js d (onCandidate d)).status = .passed)
  inherited : ∀ m ∈ contract.metrics, m.required = true → m.name ∈ inheritedNames →
    ∃ d ∈ contract.evaluators, ((resultOf js d (onBaseline d)).metrics.own m.name).isSome = true

theorem demand_eq_nil {holds : Bool} {failure : String} (h : demand holds failure = []) :
    holds = true := by
  unfold demand at h
  split at h
  case isTrue hholds => exact hholds
  case isFalse => cases h

/-- What a gate that does not reject has found. -/
structure GateOpen [DecidableEq ν] (js : Numbers ν) (input : GateInput ν) : Prop where
  candidate : input.candidateEvaluation.hardFailures = []
  evaluators : ∀ r ∈ input.candidateEvaluation.evaluators,
    evaluatorFailures input.baselineEvaluation r = []
  metrics : ∀ m ∈ input.taskContract.metrics, (input.report js m).failures = []
  security : input.securityPolicy.passed = true

theorem gateOpen [DecidableEq ν] {js : Numbers ν} {input : GateInput ν}
    (h : (decidePromotion js input).decision ≠ .reject) : GateOpen js input := by
  have hnone : input.hardFailures js = [] := by
    by_contra hfailures
    apply h
    unfold decidePromotion
    simp only
    rw [if_pos]
    simpa using hfailures
  unfold GateInput.hardFailures at hnone
  simp only [append_eq_nil_iff, flatMap_eq_nil_iff] at hnone
  obtain ⟨⟨⟨⟨⟨⟨⟨hread, hpassed⟩, -⟩, -⟩, -⟩, -⟩, -⟩, -⟩ := hnone
  obtain ⟨⟨⟨⟨-, hcandidate⟩, hevaluators⟩, hmetrics⟩, -⟩ := hread
  exact ⟨hcandidate, hevaluators, hmetrics, demand_eq_nil hpassed⟩

theorem passedAlike_of_failures {baseline candidate : Evaluation ν} {r : EvaluatorResult ν}
    (hr : r ∈ candidate.evaluators) (hrequired : r.required = true)
    (h : evaluatorFailures baseline r = []) : PassedAlike baseline candidate r.id := by
  unfold evaluatorFailures at h
  rw [if_pos hrequired] at h
  simp only [append_eq_nil_iff] at h
  obtain ⟨⟨hpassed, hmetadata⟩, hsame⟩ := h
  have hpassed := of_decide_eq_true (demand_eq_nil hpassed)
  obtain ⟨hcommand, henvironment⟩ := Bool.and_eq_true_iff.mp (demand_eq_nil hmetadata)
  have hsame := demand_eq_nil hsame
  split at hsame
  case h_1 => cases hsame
  case h_2 b hfind =>
    obtain ⟨hcommand', henvironment'⟩ := Bool.and_eq_true_iff.mp hsame
    exact ⟨r, hr, b, mem_of_find?_eq_some hfind, rfl, by simpa using find?_some hfind,
      hpassed, hcommand, henvironment, of_decide_eq_true hcommand',
      of_decide_eq_true henvironment'⟩

section

variable [DecidableEq ν]

theorem isTarget_own {p : Property ν} {target : Value ν} (h : p.isTarget target = true) :
    ∃ w, p = .own w := by
  cases p with
  | own w => exact ⟨w, rfl⟩
  | undefined => cases h
  | inherited => cases h

theorem isTarget_bool {v : MetricValue ν} {b : Bool}
    (h : (Property.own v).isTarget (.bool b) = true) : v = .bool b := by
  cases v with
  | bool c => rw [of_decide_eq_true h]
  | number n => cases h
  | string t => cases h

variable {js : Numbers ν} {m : Metric ν}

/-- A comparison that passes has a value of the candidate, good enough beside every baseline's. -/
theorem compareMetric_spec {baseline candidate : Property ν}
    (h : (compareMetric js m baseline candidate).pass = true) :
    ∃ w, candidate = .own w ∧ ∀ v, baseline = .own v → Meets js m v w := by
  have htarget : candidate.isTarget m.target = true →
      (m.direction = some .boolean ∨ m.direction = some .exact) →
      ∃ w, candidate = .own w ∧ ∀ v, baseline = .own v → Meets js m v w := by
    intro htarget hdirection
    obtain ⟨w, rfl⟩ := isTarget_own htarget
    refine ⟨w, rfl, fun v _ => ?_⟩
    unfold Meets
    rcases hdirection with hdirection | hdirection <;> rw [hdirection] <;> exact htarget
  unfold compareMetric at h
  split at h
  case h_1 hdirection => exact htarget h (.inl hdirection)
  case h_2 hdirection => exact htarget h (.inr hdirection)
  case h_3 hboolean hexact =>
    split at h
    case h_1 b c tolerance htolerance =>
      split at h
      case isTrue => cases h
      case isFalse =>
        refine ⟨_, rfl, fun v hv => ?_⟩
        cases hv
        unfold Meets
        split at h
        case isTrue hmaximize =>
          rw [hmaximize]
          exact ⟨b, c, tolerance, rfl, rfl, htolerance, h⟩
        case isFalse hminimize =>
          split
          case h_1 hdirection => exact absurd hdirection hboolean
          case h_2 hdirection => exact absurd hdirection hexact
          case h_3 hdirection => exact absurd hdirection hminimize
          case h_4 => exact ⟨b, c, tolerance, rfl, rfl, htolerance, h⟩
    case h_2 => cases h

theorem metricReport_spec {baseline candidate : Property ν} (hrequired : m.required = true)
    (h : (metricReport js m baseline candidate).failures = []) :
    baseline ≠ .undefined ∧ (compareMetric js m baseline candidate).pass = true := by
  unfold metricReport at h
  cases hpass : (compareMetric js m baseline candidate).pass with
  | true =>
    refine ⟨?_, rfl⟩
    rintro rfl
    simp [hrequired] at h
  | false => cases baseline <;> cases candidate <;> simp [hrequired, hpass] at h

/-- A required metric without a failure has a value of the candidate, and one of the baseline or a
property that is inherited. -/
theorem report_spec {baseline candidate : Metrics ν} (hrequired : m.required = true)
    (h : (metricReport js m (baseline.read m.name) (candidate.read m.name)).failures = []) :
    ∃ w, candidate.own m.name = some w ∧
      ((∃ v, baseline.own m.name = some v ∧ Meets js m v w) ∨
        (baseline.own m.name = none ∧ m.name ∈ inheritedNames)) := by
  have hown : ∀ {metrics : Metrics ν} {w}, metrics.read m.name = .own w →
      metrics.own m.name = some w := by
    intro metrics w hread
    unfold Metrics.read at hread
    split at hread
    case h_1 v hv =>
      cases hread
      exact hv
    case h_2 => split at hread <;> cases hread
  obtain ⟨hbaseline, hpass⟩ := metricReport_spec hrequired h
  obtain ⟨w, hw, hmeets⟩ := compareMetric_spec hpass
  refine ⟨w, hown hw, ?_⟩
  cases hread : baseline.read m.name with
  | own v => exact .inl ⟨v, hown hread, hmeets v hread⟩
  | undefined => exact absurd hread hbaseline
  | inherited =>
    unfold Metrics.read at hread
    split at hread
    case h_1 => cases hread
    case h_2 hnone =>
      split at hread
      case isTrue hinherited => exact .inr ⟨hnone, by simpa using hinherited⟩
      case isFalse => cases hread

variable {d : EvaluatorDescriptor ν}

theorem GateContract.result_eq {contract : TaskContract ν} (h : GateContract contract)
    {answer : EvaluatorDescriptor ν → Answer ν} (hd : d ∈ contract.evaluators)
    {r : EvaluatorResult ν} (hr : r ∈ (evaluateAll js contract answer).evaluators)
    (hid : r.id = d.id) : r = resultOf js d (answer d) := by
  rw [evaluateAll_evaluators] at hr
  obtain ⟨e, he, rfl⟩ := mem_map.mp hr
  rw [resultOf_id] at hid
  rw [inj_on_of_nodup_map h.ids he hd hid]

/-- The gate is asked about the contract, with what its evaluators answered. -/
structure Gated (js : Numbers ν) (contract : TaskContract ν)
    (onBaseline onCandidate : EvaluatorDescriptor ν → Answer ν) (input : GateInput ν) : Prop where
  taskContract : input.taskContract = contract
  baseline : input.baselineEvaluation = evaluateAll js contract onBaseline
  candidate : input.candidateEvaluation = evaluateAll js contract onCandidate
  security : input.securityPolicy = securityPolicyFrom input.candidateEvaluation

variable {js : Numbers ν} {contract : TaskContract ν}
  {onBaseline onCandidate : EvaluatorDescriptor ν → Answer ν} {input : GateInput ν}

theorem passedAlike_of_open (hgated : Gated js contract onBaseline onCandidate input)
    (hopen : GateOpen js input) (hd : d ∈ contract.evaluators) (hrequired : d.required = true) :
    PassedAlike (evaluateAll js contract onBaseline) (evaluateAll js contract onCandidate)
      d.id := by
  have hr : resultOf js d (onCandidate d) ∈ (evaluateAll js contract onCandidate).evaluators := by
    rw [evaluateAll_evaluators]
    exact mem_map_of_mem hd
  have hfailures := hopen.evaluators _ (hgated.candidate ▸ hr)
  rw [hgated.baseline] at hfailures
  have halike := passedAlike_of_failures hr (by rw [resultOf_required, hrequired]) hfailures
  rwa [resultOf_id] at halike

theorem metric_of_open (hgated : Gated js contract onBaseline onCandidate input)
    (hopen : GateOpen js input) (hm : m ∈ contract.metrics) (hrequired : m.required = true) :
    ∃ w, (evaluateAll js contract onCandidate).aggregateMetrics.own m.name = some w ∧
      ((∃ v, (evaluateAll js contract onBaseline).aggregateMetrics.own m.name = some v ∧
          Meets js m v w) ∨
        ((evaluateAll js contract onBaseline).aggregateMetrics.own m.name = none ∧
          m.name ∈ inheritedNames)) := by
  have hfailures := hopen.metrics m (hgated.taskContract ▸ hm)
  unfold GateInput.report at hfailures
  rw [hgated.baseline, hgated.candidate] at hfailures
  exact report_spec hrequired hfailures

/-- Whoever reports that the candidate is secure or not, the gate is open for a secure one only. -/
theorem secure_of_open (hcontract : GateContract contract)
    (hgated : Gated js contract onBaseline onCandidate input) (hopen : GateOpen js input)
    (hd : d ∈ contract.evaluators) {v : MetricValue ν}
    (hv : (resultOf js d (onCandidate d)).metrics.own "security_passed" = some v) :
    v = .bool true := by
  have hfailures : (evaluateAll js contract onCandidate).hardFailures = [] :=
    hgated.candidate ▸ hopen.candidate
  have hown := evaluateAll_own hfailures hd (by decide) hv
  obtain ⟨m, hm, hpassed⟩ := hcontract.securityPassed
  unfold Metric.isSecurityPassed at hpassed
  simp only [Bool.and_eq_true, decide_eq_true_eq] at hpassed
  obtain ⟨⟨⟨hname, hdirection⟩, hrequired⟩, htarget⟩ := hpassed
  obtain ⟨w, hw, hmeets⟩ := metric_of_open hgated hopen hm hrequired
  rw [hname] at hw hmeets
  have hvw : v = w := Option.some.inj (hown.symm.trans hw)
  subst hvw
  obtain ⟨u, -, hmeets⟩ | ⟨-, hinherited⟩ := hmeets
  case inr => exact absurd hinherited (by decide)
  unfold Meets at hmeets
  rw [hdirection] at hmeets
  split at htarget
  case h_1 b hb =>
    rw [hb] at hmeets
    rw [isTarget_bool hmeets, htarget]
  case h_2 => cases htarget

end

/-! ### A task with two evaluators -/

/-- Numbers that are integers. -/
def intNumbers : Numbers ℤ where
  finite _ := true
  negative n := n < 0
  safeInteger n := some n
  le a b := a ≤ b
  add a b := a + b
  sub a b := a - b

def twoEvaluators (securityRequired : Bool) : Value ℤ :=
  .object [("contractVersion", .string "ds4_evolution_task_v1"), ("taskId", .string "t1"),
    ("title", .string "t"), ("objective", .string "o"), ("workspaceRoot", .string "/repo"),
    ("mutablePaths", .array [.string "lib"]), ("immutablePaths", .array []),
    ("baselineRef", .string "HEAD"),
    ("evaluators", .array
      [.object [("id", .string "unit-tests"), ("required", .bool true)],
        .object [("id", .string "security-policy"), ("required", .bool securityRequired)]]),
    ("metrics", .array
      [.object [("name", .string "security_passed"), ("direction", .string "boolean"),
        ("required", .bool true), ("baselineTolerance", .number 0), ("target", .bool true),
        ("weight", .number 1)]]),
    ("budgets", .object (budgetKeysV1.map fun key => (key, .number 1))),
    ("approvalPolicy", .object [("mode", .string "manual"), ("allowedRiskLevels", .array [])])]

def twoEvaluatorsContract (securityRequired : Bool) : TaskContract ℤ :=
  (validateEvolutionTask intNumbers "/repo".toList false (twoEvaluators securityRequired)).2

/-- The answer of an evaluator that passes. -/
def passes (metrics : List (String × RawMetric ℤ)) : Answer ℤ :=
  .returned ⟨some .passed, metrics, [], some "c", some "e"⟩

def allSecure : EvaluatorDescriptor ℤ → Answer ℤ := fun d =>
  if d.id = "security-policy" then passes [("security_passed", .value (.bool true))] else passes []

/-- The tests say that the candidate is secure, and the security evaluator throws. -/
def testsSecure : EvaluatorDescriptor ℤ → Answer ℤ := fun d =>
  if d.id = "security-policy" then .threw none
  else passes [("security_passed", .value (.bool true))]

def gateInput (contract : TaskContract ℤ)
    (onBaseline onCandidate : EvaluatorDescriptor ℤ → Answer ℤ) : GateInput ℤ where
  taskContract := contract
  decidedAt := some "2025-01-01T00:00:00.000Z"
  baselineEvaluation := evaluateAll intNumbers contract onBaseline
  candidateEvaluation := evaluateAll intNumbers contract onCandidate
  candidate := ⟨false, false, false, false, [], none⟩
  securityPolicy := securityPolicyFrom (evaluateAll intNumbers contract onCandidate)
  baselineIntegrity := true
  budgetExceeded := false
  networkAuthorization := false
  rollbackArtifact := some ⟨String.ofList ("sha256:".toList ++ replicate 64 'a'),
    String.ofList (replicate 64 'a'), String.ofList (replicate 64 'b')⟩

theorem twoEvaluators_accepted (securityRequired : Bool) :
    Accepted intNumbers "/repo".toList false (twoEvaluators securityRequired)
      (twoEvaluatorsContract securityRequired) := by
  refine Prod.ext ?_ rfl
  cases securityRequired <;> decide +kernel

theorem gateInput_gated (contract : TaskContract ℤ)
    (onBaseline onCandidate : EvaluatorDescriptor ℤ → Answer ℤ) :
    Gated intNumbers contract onBaseline onCandidate (gateInput contract onBaseline onCandidate) :=
  ⟨rfl, rfl, rfl, rfl⟩

/-! ### The gate -/

/-- The gate lets a candidate with the evidence of the contract pass, and another one exactly if a
security evaluator says nothing or a metric is named like an inherited property. -/
theorem promotion_evidence [DecidableEq ν] {js : Numbers ν} {root : List Char} {allowLevelE : Bool}
    {task : Value ν} {contract : TaskContract ν}
    {onBaseline onCandidate : EvaluatorDescriptor ν → Answer ν} {input : GateInput ν}
    (hcontract : Accepted js root allowLevelE task contract)
    (hgated : Gated js contract onBaseline onCandidate input)
    (hdecision : (decidePromotion js input).decision ≠ .reject) :
    Evidence js contract (evaluateAll js contract onBaseline)
        (evaluateAll js contract onCandidate) ↔
      Reported js contract onBaseline onCandidate := by
  have hopen := gateOpen hdecision
  have hgate := hcontract.gate
  constructor
  case mp =>
    intro hevidence
    refine ⟨fun d hd hsecurity => ?_, fun m hm hrequired _ => ?_⟩
    · obtain ⟨r, hr, hid, hpassed, hsecure⟩ := hevidence.security d hd hsecurity
      rw [hgate.result_eq hd hr hid] at hpassed hsecure
      rw [hsecure]
      exact ⟨rfl, fun _ => hpassed⟩
    · obtain ⟨v, w, hv, -⟩ := hevidence.metrics m hm hrequired
      rw [← evaluateAll_isSome, hv]
      rfl
  case mpr =>
    intro hreported
    refine ⟨fun d hd => passedAlike_of_open hgated hopen hd, fun m hm hrequired => ?_,
      fun d hd hsecurity => ?_⟩
    · obtain ⟨w, hw, ⟨v, hv, hmeets⟩ | ⟨hnone, hinherited⟩⟩ :=
        metric_of_open hgated hopen hm hrequired
      · exact ⟨v, w, hv, hw, hmeets⟩
      · obtain ⟨d, hd, hown⟩ := hreported.inherited m hm hrequired hinherited
        have hsome := (evaluateAll_isSome js contract onBaseline m.name).mpr ⟨d, hd, hown⟩
        rw [hnone] at hsome
        cases hsome
    · obtain ⟨hsome, hoptional⟩ := hreported.security d hd hsecurity
      obtain ⟨v, hv⟩ := Option.isSome_iff_exists.mp hsome
      have hr : resultOf js d (onCandidate d) ∈
          (evaluateAll js contract onCandidate).evaluators := by
        rw [evaluateAll_evaluators]
        exact mem_map_of_mem hd
      refine ⟨_, hr, resultOf_id .., ?_, ?_⟩
      · cases hrequired : d.required with
        | true =>
          obtain ⟨r, hr, -, -, hid, -, hpassed, -⟩ := passedAlike_of_open hgated hopen hd hrequired
          rwa [hgate.result_eq hd hr hid] at hpassed
        | false => exact hoptional hrequired
      · rw [hv, secure_of_open hgate hgated hopen hd hv]

theorem promotion_evidence_secure :
    Evidence intNumbers (twoEvaluatorsContract true)
      (evaluateAll intNumbers (twoEvaluatorsContract true) allSecure)
      (evaluateAll intNumbers (twoEvaluatorsContract true) allSecure) := by
  refine (promotion_evidence (twoEvaluators_accepted true) (gateInput_gated _ allSecure allSecure)
    (by decide)).mpr ⟨?_, ?_⟩
  · decide
  · decide

/-- The metric of the tests counts for that of the security evaluator. -/
theorem promotion_without_security :
    Accepted intNumbers "/repo".toList false (twoEvaluators false) (twoEvaluatorsContract false) ∧
      Gated intNumbers (twoEvaluatorsContract false) allSecure testsSecure
        (gateInput (twoEvaluatorsContract false) allSecure testsSecure) ∧
      (decidePromotion intNumbers
        (gateInput (twoEvaluatorsContract false) allSecure testsSecure)).decision
          = .manualReview ∧
      ¬ Evidence intNumbers (twoEvaluatorsContract false)
        (evaluateAll intNumbers (twoEvaluatorsContract false) allSecure)
        (evaluateAll intNumbers (twoEvaluatorsContract false) testsSecure) := by
  refine ⟨twoEvaluators_accepted false, gateInput_gated _ _ _, by decide, fun hevidence => ?_⟩
  have hdeclared : ∃ d ∈ (twoEvaluatorsContract false).evaluators,
      d.isSecurity = true ∧ d.id = "security-policy" := by
    decide
  obtain ⟨d, hd, hsecurity, hid⟩ := hdeclared
  have hpassed := hevidence.security d hd hsecurity
  rw [hid] at hpassed
  revert hpassed
  unfold PassedSecure
  decide

end Ds4Studio.Evolution
