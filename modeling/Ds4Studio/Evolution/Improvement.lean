import Ds4Studio.Evolution.Evaluator
import Ds4Studio.Evolution.States
import Ds4Studio.Lib.Doubles

/-!
How many revisions in a row have not improved anything. The best value of every metric is carried
from one revision to the next; a revision counts when it improves one of them and no required
metric falls behind its best value by more than its tolerance. The tolerance is read by a helper
that is made for counters and takes every fraction for zero.
-/

namespace Ds4Studio.Evolution.Improvement

open Evolution List

/-! ### Numbers and operators -/

/-- `Number.isSafeInteger` -/
def isSafeInteger : Num → Bool
  | .fin q => q.den = 1 && q.num.natAbs < 2 ^ 53
  | _ => false

/-- `positive` -/
def positive (value fallback : Num) : Num :=
  if isSafeInteger value && (Num.nat 0).le value then value else fallback

/-- The numbers that a contract is read with. -/
def numbers (d : Doubles) : Numbers Num where
  finite x := (Num.negInf.lt x) && x.lt .posInf
  negative x := x.lt (.nat 0)
  safeInteger
    | .fin q => if isSafeInteger (.fin q) then some q.num else none
    | _ => none
  le := Num.le
  add := d.add
  sub := d.sub

/-- What the operators do with texts. -/
structure Texts where
  /-- `Number(s)` -/
  number : String → Num
  less : String → String → Bool
  less_irrefl : ∀ s, less s s = false
  /-- `String(x)` -/
  text : Num → String
  /-- The text of a property that every plain object inherits. -/
  inherited : String → String

variable (d : Doubles) (texts : Texts)

def toNumber : MetricValue Num → Num
  | .number x => x
  | .bool b => .nat b.toNat
  | .string s => texts.number s

/-- `v < w` -/
def lessThan : MetricValue Num → MetricValue Num → Bool
  | .string s, .string t => texts.less s t
  | v, w => (toNumber texts v).lt (toNumber texts w)

/-- `v - x` -/
def minus (v : MetricValue Num) (x : Num) : MetricValue Num := .number (d.sub (toNumber texts v) x)

/-- `v + x`, which joins a text with a number. -/
def plus : MetricValue Num → Num → MetricValue Num
  | .string s, x => .string (s ++ texts.text x)
  | v, x => .number (d.add (toNumber texts v) x)

/-- `value === target` -/
def same : MetricValue Num → Value Num → Bool
  | .number x, .number y => x = y
  | .bool b, .bool c => b = c
  | .string s, .string t => s = t
  | _, _ => false

/-- `metrics[name] ?? null`; a property that is inherited acts as its text. -/
def valueOf (metrics : Metrics Num) (name : String) : Option (MetricValue Num) :=
  match metrics.read name with
  | .undefined => none
  | .inherited => some (.string (texts.inherited name))
  | .own v => some v

/-! ### One metric -/

structure MetricChange where
  improved : Bool
  regressed : Bool
  next : Option (MetricValue Num)

/-- The value is better than the best one so far. -/
def better (metric : Metric Num) (previous value : MetricValue Num) : Bool :=
  match metric.direction with
  | some .maximize => lessThan texts previous value
  | some .minimize => lessThan texts value previous
  | _ => same value metric.target && !same previous metric.target

/-- The value of a required metric is worse than the best one so far by more than the tolerance. -/
def worse (metric : Metric Num) (tolerance : Num) (previous value : MetricValue Num) : Bool :=
  metric.required &&
    match metric.direction with
    | some .maximize => lessThan texts value (minus d texts previous tolerance)
    | some .minimize => lessThan texts (plus d texts previous tolerance) value
    | _ => same previous metric.target && !same value metric.target

def merge (metric : Metric Num) (previous value : MetricValue Num) : MetricValue Num :=
  match metric.direction with
  | some .maximize => .number ((toNumber texts previous).max (toNumber texts value))
  | some .minimize => .number ((toNumber texts previous).min (toNumber texts value))
  | _ => if same value metric.target && !same previous metric.target then value else previous

/-- `metric.baselineTolerance` -/
def tolerance (metric : Metric Num) : Num := metric.baselineTolerance.getD .nan

/-- `evaluateMetric` -/
def evaluateMetric (metric : Metric Num) :
    Option (MetricValue Num) → Option (MetricValue Num) → MetricChange
  | previous, none => ⟨false, false, previous⟩
  | none, some value => ⟨true, false, some value⟩
  | some previous, some value =>
      ⟨better texts metric previous value,
        worse d texts metric (positive (tolerance metric) (.nat 0)) previous value,
        some (merge texts metric previous value)⟩

/-! ### The loop -/

structure RevisionEvaluation where
  revision : ℕ
  outcome : RunState
  evaluation : Option (Evaluation Num)

/-- The evaluation of a revision that is promoted or completed and has no hard failure. -/
def RevisionEvaluation.usable (entry : RevisionEvaluation) : Option (Evaluation Num) :=
  entry.evaluation.filter fun e =>
    [RunState.promoted, .completed].contains entry.outcome && e.hardFailures.isEmpty

/-- A metric without a value has no entry in `best`. -/
structure ImprovementState where
  best : Metrics Num
  noImprovementStreak : ℕ
  lastImprovedRevision : Option ℕ

def changes (metrics : List (Metric Num)) (best : Metrics Num) (e : Evaluation Num) :
    List (String × MetricChange) :=
  metrics.map fun m => (m.name,
    evaluateMetric d texts m (valueOf texts best m.name) (valueOf texts e.aggregateMetrics m.name))

/-- `nextBest[name] = next` -/
def store (best : Metrics Num) (change : String × MetricChange) : Metrics Num :=
  match change.2.next with
  | some v => best.set change.1 v
  | none => best

/-- One turn of the loop of `deriveImprovementState`. -/
def improveBy (metrics : List (Metric Num)) (state : ImprovementState)
    (entry : RevisionEvaluation) : ImprovementState :=
  let missed := { state with noImprovementStreak := state.noImprovementStreak + 1 }
  match entry.usable with
  | none => missed
  | some e =>
      let all := changes d texts metrics state.best e
      if (all.any fun c => c.2.improved) && !all.any fun c => c.2.regressed then
        ⟨all.foldl store state.best, 0, some entry.revision⟩
      else missed

/-- `deriveImprovementState`, but for `exhausted`. -/
def deriveImprovementState (metrics : List (Metric Num)) (baseline : Metrics Num)
    (entries : List RevisionEvaluation) : ImprovementState :=
  entries.foldl (improveBy d texts metrics) ⟨baseline, 0, none⟩

/-- `deriveImprovementState(…).exhausted` -/
def exhausted (budgets : Budgets) (state : ImprovementState) : Bool :=
  (positive (((budgets.get "maxNoImprovementRevisions").map fun n => Num.fin n).getD .nan)
    (.nat (2 ^ 53 - 1))).le (.nat state.noImprovementStreak)

/-! ### What the limit measures -/

/-- The value is better than the best one so far; a first value is. -/
def improves (metric : Metric Num) : Option (MetricValue Num) → Option (MetricValue Num) → Bool
  | _, none => false
  | none, some _ => true
  | some previous, some value => better texts metric previous value

/-- The value is worse than the best one so far by more than the tolerance of the metric. -/
def fallsBehind (metric : Metric Num) :
    Option (MetricValue Num) → Option (MetricValue Num) → Bool
  | some previous, some value => worse d texts metric (tolerance metric) previous value
  | _, _ => false

/-- The values of a metric in the baseline and in the evaluations that have counted. -/
def valuesOf (baseline : Metrics Num) (counted : List (Evaluation Num)) (name : String) :
    List (MetricValue Num) :=
  (baseline :: counted.map Evaluation.aggregateMetrics).filterMap fun metrics => metrics.own name

/-- One of the values, and none of them is better. -/
def Best (metric : Metric Num) (values : List (MetricValue Num)) :
    Option (MetricValue Num) → Prop
  | none => values = []
  | some b => b ∈ values ∧ ∀ v ∈ values, better texts metric b v = false

/-- The revision counts. -/
structure Resets (metrics : List (Metric Num)) (best : String → Option (MetricValue Num))
    (entry : RevisionEvaluation) (e : Evaluation Num) : Prop where
  usable : entry.usable = some e
  improved : ∃ m ∈ metrics, improves texts m (best m.name) (e.aggregateMetrics.own m.name) = true
  kept : ∀ m ∈ metrics,
    fallsBehind d texts m (best m.name) (e.aggregateMetrics.own m.name) = false

/-- Which evaluations have counted behind some revisions, and how many revisions there are since
the last one that did. -/
inductive History (metrics : List (Metric Num)) (baseline : Metrics Num) :
    List RevisionEvaluation → List (Evaluation Num) → ℕ → Prop
  | start : History metrics baseline [] [] 0
  | reset {entries counted n best entry e} (h : History metrics baseline entries counted n)
      (hbest : ∀ m ∈ metrics, Best texts m (valuesOf baseline counted m.name) (best m.name))
      (hresets : Resets d texts metrics best entry e) :
      History metrics baseline (entries ++ [entry]) (counted ++ [e]) 0
  | missed {entries counted n best entry} (h : History metrics baseline entries counted n)
      (hbest : ∀ m ∈ metrics, Best texts m (valuesOf baseline counted m.name) (best m.name))
      (hkept : ∀ e, ¬ Resets d texts metrics best entry e) :
      History metrics baseline (entries ++ [entry]) counted (n + 1)

/-! ### When the code measures it -/

/-- A value of a metric that is compared by size is a number. -/
def Numeric (metric : Metric Num) (v : MetricValue Num) : Prop :=
  metric.direction = some .maximize ∨ metric.direction = some .minimize →
    ∃ x, x ≠ Num.nan ∧ v = .number x

/-- The properties that are read under the name of the metric are no inherited ones, and they hold
numbers where these are compared. -/
structure Measured (best : Metrics Num) (e : Evaluation Num) (metric : Metric Num) : Prop where
  name : metric.name ≠ "__proto__"
  readBest : best.read metric.name ≠ .inherited
  readValue : e.aggregateMetrics.read metric.name ≠ .inherited
  numeric : ∀ v, best.own metric.name = some v ∨ e.aggregateMetrics.own metric.name = some v →
    Numeric metric v

/-- A value that is worse than the best one is so by more than the tolerance, unless the tolerance
is a safe integer. -/
def Tolerated (best : Metrics Num) (e : Evaluation Num) (metric : Metric Num) : Prop :=
  ∀ p v, best.own metric.name = some p → e.aggregateMetrics.own metric.name = some v →
    worse d texts metric (.nat 0) p v = true →
      isSafeInteger (tolerance metric) = true ∨
        worse d texts metric (tolerance metric) p v = true

/-- A revision that is measured as it should be. -/
def Regular (metrics : List (Metric Num)) (best : Metrics Num) (entry : RevisionEvaluation) :
    Prop :=
  ∀ e, entry.usable = some e → (∀ m ∈ metrics, Measured best e m) ∧
    (Resets d texts metrics best.own entry e → ∀ m ∈ metrics, Tolerated d texts best e m)

/-! ### Metrics of a contract -/

variable {d texts}

theorem tolerance_accepted {tolerance : Option Num}
    (h : (numbers d).finiteNonNegative tolerance = true) :
    ∃ q : ℚ, 0 ≤ q ∧ tolerance.getD .nan = .fin q := by
  cases tolerance with
  | none => cases h
  | some x => cases x <;> simp_all [Numbers.finiteNonNegative, numbers, Num.lt, Num.nat]

variable {metrics : List (Metric Num)}

theorem normalizeMetricsFrom_accepted {names : List String} {index : ℕ} {entries : List (Value Num)}
    (h : normalizeMetricsFrom (numbers d) names index entries = ([], metrics)) :
    (metrics.map Metric.name).Nodup ∧
      ∀ m ∈ metrics, m.name ∉ names ∧ ∃ q : ℚ, 0 ≤ q ∧ tolerance m = .fin q := by
  induction entries generalizing names index metrics with
  | nil =>
    obtain rfl : [] = metrics := by simpa [normalizeMetricsFrom] using h
    simp
  | cons entry entries ih =>
    simp only [normalizeMetricsFrom, Prod.mk.injEq, append_eq_nil_iff] at h
    obtain ⟨⟨hentry, hbehind⟩, rfl⟩ := h
    obtain ⟨hnodup, hall⟩ := ih (Prod.ext hbehind rfl)
    simp only [normalizeMetric, append_eq_nil_iff] at hentry
    obtain ⟨⟨⟨⟨⟨⟨⟨⟨-, -⟩, hname⟩, -⟩, htolerance⟩, -⟩, -⟩, -⟩, -⟩ := hentry
    have hnew := check_eq_nil hname
    rw [Bool.not_eq_true', contains_eq_mem, decide_eq_false_iff_not] at hnew
    refine ⟨nodup_cons.mpr ⟨?_, hnodup⟩, ?_⟩
    · rw [mem_map]
      rintro ⟨m, hm, hsame⟩
      exact (hall m hm).1 (hsame ▸ mem_cons_self)
    · intro m hm
      rcases mem_cons.mp hm with rfl | hm
      · exact ⟨hnew, tolerance_accepted (check_eq_nil htolerance)⟩
      · exact ⟨fun hmem => (hall m hm).1 (mem_cons_of_mem _ hmem), (hall m hm).2⟩

theorem normalizeMetrics_accepted {value : Option (Value Num)}
    (h : normalizeMetrics (numbers d) value = ([], metrics)) :
    (metrics.map Metric.name).Nodup ∧ ∀ m ∈ metrics, ∃ q : ℚ, 0 ≤ q ∧ tolerance m = .fin q := by
  unfold normalizeMetrics at h
  split at h
  case h_1 entry rest =>
    simp only [Prod.mk.injEq, append_eq_nil_iff] at h
    obtain ⟨hnodup, hall⟩ := normalizeMetricsFrom_accepted (Prod.ext h.1.1 h.2)
    exact ⟨hnodup, fun m hm => (hall m hm).2⟩
  case h_2 => simp [issue] at h

/-! ### Values that are compared by size -/

@[simp]
theorem lessThan_number_left (x : Num) (w : MetricValue Num) :
    lessThan texts (.number x) w = x.lt (toNumber texts w) := by
  cases w <;> rfl

@[simp]
theorem lessThan_number_right (x : Num) (w : MetricValue Num) :
    lessThan texts w (.number x) = (toNumber texts w).lt x := by
  cases w <;> rfl

theorem sub_anti (d : Doubles) {x : Num} (hx : x ≠ .nan) {q : ℚ} (hq : 0 ≤ q) :
    (d.sub x (.fin q)).le (d.sub x (.nat 0)) = true := by
  cases x with
  | nan => exact absurd rfl hx
  | negInf => rfl
  | posInf => rfl
  | fin p => exact d.mono _ _ (by simpa [Num.neg, Num.nat] using hq)

theorem add_zero_le (d : Doubles) {x : Num} (hx : x ≠ .nan) {q : ℚ} (hq : 0 ≤ q) :
    (d.add x (.nat 0)).le (d.add x (.fin q)) = true := by
  cases x with
  | nan => exact absurd rfl hx
  | negInf => rfl
  | posInf => rfl
  | fin p => exact d.mono _ _ (by simpa [Num.nat] using hq)

variable {m : Metric Num}

theorem worse_zero {p v : MetricValue Num} (hp : Numeric m p) {q : ℚ} (hq : 0 ≤ q)
    (h : worse d texts m (.fin q) p v = true) : worse d texts m (.nat 0) p v = true := by
  unfold worse at h ⊢
  rw [Bool.and_eq_true] at h ⊢
  refine ⟨h.1, ?_⟩
  have hbehind := h.2
  split at hbehind
  case h_1 hdir =>
    obtain ⟨x, hx, rfl⟩ := hp (.inl hdir)
    simp only [minus, lessThan_number_right, toNumber] at hbehind ⊢
    exact Num.lt_of_lt_of_le hbehind (sub_anti d hx hq)
  case h_2 hdir =>
    obtain ⟨x, hx, rfl⟩ := hp (.inr hdir)
    exact Num.lt_of_le_of_lt (add_zero_le d hx hq) hbehind
  case h_3 => exact hbehind

theorem positive_cases {q : ℚ} (hq : 0 ≤ q) :
    (isSafeInteger (.fin q) = true ∧ positive (.fin q) (.nat 0) = .fin q) ∨
      (isSafeInteger (.fin q) = false ∧ positive (.fin q) (.nat 0) = .nat 0) := by
  unfold positive
  have hle : (Num.nat 0).le (.fin q) = true := by simpa [Num.nat] using hq
  cases isSafeInteger (.fin q) <;> simp [hle]

/-! ### The best values -/

theorem lessThan_self (v : MetricValue Num) : lessThan texts v v = false := by
  have hself : ∀ x : Num, x.lt x = false := fun x => by cases x <;> simp [Num.lt]
  cases v with
  | string s => exact texts.less_irrefl s
  | number x => exact hself x
  | bool b => exact hself (.nat b.toNat)

theorem better_self (m : Metric Num) (v : MetricValue Num) : better texts m v v = false := by
  unfold better
  split
  case h_1 => exact lessThan_self v
  case h_2 => exact lessThan_self v
  case h_3 => cases same v m.target <;> rfl

theorem merge_eq {p v : MetricValue Num} (hp : Numeric m p) (hv : Numeric m v) :
    merge texts m p v = if better texts m p v then v else p := by
  unfold merge better
  split
  case h_1 hdir =>
    obtain ⟨x, hx, rfl⟩ := hp (.inl hdir)
    obtain ⟨y, hy, rfl⟩ := hv (.inl hdir)
    simp only [toNumber, lessThan_number_left, Num.max, hx, hy, or_self, if_false]
    exact apply_ite _ _ _ _
  case h_2 hdir =>
    obtain ⟨x, hx, rfl⟩ := hp (.inr hdir)
    obtain ⟨y, hy, rfl⟩ := hv (.inr hdir)
    simp only [toNumber, lessThan_number_left, Num.min, hx, hy, or_self, if_false]
    exact apply_ite _ _ _ _
  case h_3 => rfl

theorem better_trans {p v w : MetricValue Num} (hp : Numeric m p) (hv : Numeric m v)
    (h : better texts m p v = true) (hw : better texts m p w = false) :
    better texts m v w = false := by
  unfold better at h hw ⊢
  split at h
  case h_1 hdir =>
    obtain ⟨x, -, rfl⟩ := hp (.inl hdir)
    obtain ⟨y, -, rfl⟩ := hv (.inl hdir)
    simp only [hdir, lessThan_number_left, toNumber] at h hw ⊢
    by_contra hlt
    rw [Bool.not_eq_false] at hlt
    rw [Num.lt_of_lt_of_le h (Num.le_of_lt hlt)] at hw
    cases hw
  case h_2 hdir =>
    obtain ⟨x, -, rfl⟩ := hp (.inr hdir)
    obtain ⟨y, -, rfl⟩ := hv (.inr hdir)
    simp only [hdir, lessThan_number_right, toNumber] at h hw ⊢
    by_contra hlt
    rw [Bool.not_eq_false] at hlt
    rw [Num.lt_of_le_of_lt (Num.le_of_lt hlt) h] at hw
    cases hw
  case h_3 hmax hmin =>
    rw [Bool.and_eq_true] at h
    simp [h.1]

theorem Best.next {values : List (MetricValue Num)} {p v : Option (MetricValue Num)}
    (hbest : Best texts m values p) (hp : ∀ w, p = some w ∨ v = some w → Numeric m w) :
    Best texts m (values ++ v.toList) (evaluateMetric d texts m p v).next := by
  cases v with
  | none => simpa [evaluateMetric] using hbest
  | some v =>
    have hv := hp v (.inr rfl)
    cases p with
    | none =>
      obtain rfl : values = [] := hbest
      simpa [evaluateMetric, Best] using better_self m v
    | some p =>
      have hp := hp p (.inl rfl)
      obtain ⟨hmem, hall⟩ := hbest
      simp only [evaluateMetric, Best, merge_eq hp hv, Option.toList_some, mem_append,
        mem_singleton]
      cases hbetter : better texts m p v with
      | true =>
        refine ⟨.inr rfl, ?_⟩
        rintro w (hw | rfl)
        · exact better_trans hp hv hbetter (hall w hw)
        · exact better_self m w
      | false =>
        refine ⟨.inl hmem, ?_⟩
        rintro w (hw | rfl)
        · exact hall w hw
        · exact hbetter

/-! ### One revision -/

variable {name : String}

theorem valueOf_own {metrics : Metrics Num} (h : metrics.read name ≠ .inherited) :
    valueOf texts metrics name = metrics.own name := by
  unfold valueOf
  unfold Metrics.read at h ⊢
  cases hown : metrics.own name with
  | some v => rfl
  | none =>
    rw [hown] at h
    split
    case h_1 => rfl
    case h_2 heq => exact absurd heq h
    case h_3 heq => simp only at heq; split at heq <;> cases heq

variable {best : Metrics Num}

theorem own_store_ne {change : String × MetricChange} (hproto : change.1 ≠ "__proto__")
    (hne : change.1 ≠ name) : (store best change).own name = best.own name := by
  unfold store
  split
  · rw [Metrics.own_set hproto, if_neg hne]
  · rfl

theorem own_foldl_store_ne {all : List (String × MetricChange)}
    (hproto : ∀ c ∈ all, c.1 ≠ "__proto__") (hne : ∀ c ∈ all, c.1 ≠ name) :
    (all.foldl store best).own name = best.own name := by
  induction all generalizing best with
  | nil => rfl
  | cons c all ih =>
    rw [forall_mem_cons] at hproto hne
    rw [foldl_cons, ih hproto.2 hne.2, own_store_ne hproto.1 hne.1]

theorem own_foldl_store {all : List (String × MetricChange)} (hnodup : (all.map Prod.fst).Nodup)
    (hproto : ∀ c ∈ all, c.1 ≠ "__proto__") {c : String × MetricChange} (hc : c ∈ all) :
    (all.foldl store best).own c.1 = c.2.next.or (best.own c.1) := by
  induction all generalizing best with
  | nil => cases hc
  | cons first all ih =>
    rw [map_cons, nodup_cons] at hnodup
    rw [forall_mem_cons] at hproto
    rw [foldl_cons]
    have hfresh : ∀ c ∈ all, c.1 ≠ first.1 := fun c hmem hsame =>
      hnodup.1 (hsame ▸ mem_map_of_mem hmem)
    rcases mem_cons.mp hc with rfl | hc
    · rw [own_foldl_store_ne hproto.2 hfresh]
      unfold store
      cases hnext : c.2.next with
      | none => rfl
      | some v => rw [Metrics.own_set hproto.1, if_pos rfl]; rfl
    · rw [ih hnodup.2 hproto.2 hc, own_store_ne hproto.1 (hfresh c hc).symm]

section Step

variable {metrics : List (Metric Num)} {state : ImprovementState} {entry : RevisionEvaluation}
  {e : Evaluation Num}

theorem any_improved (hmeasured : ∀ m ∈ metrics, Measured state.best e m) :
    ((changes d texts metrics state.best e).any fun c => c.2.improved) = true ↔
      ∃ m ∈ metrics,
        improves texts m (state.best.own m.name) (e.aggregateMetrics.own m.name) = true := by
  rw [changes, any_map, any_eq_true]
  refine exists_congr fun m => and_congr_right fun hm => ?_
  obtain ⟨-, hbest, hvalue, -⟩ := hmeasured m hm
  simp only [Function.comp_apply, valueOf_own hbest, valueOf_own hvalue]
  cases state.best.own m.name <;> cases e.aggregateMetrics.own m.name <;> rfl

theorem any_regressed (hmeasured : ∀ m ∈ metrics, Measured state.best e m) :
    ((changes d texts metrics state.best e).any fun c => c.2.regressed) = true ↔
      ∃ m ∈ metrics, ∃ p v, state.best.own m.name = some p ∧
        e.aggregateMetrics.own m.name = some v ∧
        worse d texts m (positive (tolerance m) (.nat 0)) p v = true := by
  rw [changes, any_map, any_eq_true]
  refine exists_congr fun m => and_congr_right fun hm => ?_
  obtain ⟨-, hbest, hvalue, -⟩ := hmeasured m hm
  simp only [Function.comp_apply, valueOf_own hbest, valueOf_own hvalue]
  cases state.best.own m.name <;> cases e.aggregateMetrics.own m.name <;> simp [evaluateMetric]

theorem fallsBehind_iff {m : Metric Num} {previous value : Option (MetricValue Num)} :
    fallsBehind d texts m previous value = true ↔
      ∃ p v, previous = some p ∧ value = some v ∧
        worse d texts m (tolerance m) p v = true := by
  cases previous <;> cases value <;> simp [fallsBehind]

theorem resets_iff (haccepted : ∀ m ∈ metrics, ∃ q : ℚ, 0 ≤ q ∧ tolerance m = .fin q)
    (hregular : Regular d texts metrics state.best entry) (husable : entry.usable = some e) :
    (((changes d texts metrics state.best e).any fun c => c.2.improved) &&
        !(changes d texts metrics state.best e).any fun c => c.2.regressed) = true ↔
      Resets d texts metrics state.best.own entry e := by
  obtain ⟨hmeasured, htolerated⟩ := hregular e husable
  rw [Bool.and_eq_true, Bool.not_eq_true', any_improved hmeasured, ← Bool.not_eq_true,
    any_regressed hmeasured]
  constructor
  · rintro ⟨himproved, hregressed⟩
    refine ⟨husable, himproved, fun m hm => ?_⟩
    rw [← Bool.not_eq_true, fallsBehind_iff]
    rintro ⟨p, v, hp, hv, hworse⟩
    obtain ⟨q, hq, htol⟩ := haccepted m hm
    refine hregressed ⟨m, hm, p, v, hp, hv, ?_⟩
    rw [htol] at hworse ⊢
    rcases positive_cases hq with ⟨-, hpos⟩ | ⟨-, hpos⟩ <;> rw [hpos]
    · exact hworse
    · exact worse_zero ((hmeasured m hm).numeric p (.inl hp)) hq hworse
  · intro hresets
    refine ⟨hresets.improved, ?_⟩
    rintro ⟨m, hm, p, v, hp, hv, hworse⟩
    obtain ⟨q, hq, htol⟩ := haccepted m hm
    have hkept := hresets.kept m hm
    rw [← Bool.not_eq_true, fallsBehind_iff] at hkept
    have hnot : ¬ worse d texts m (tolerance m) p v = true := fun hw => hkept ⟨p, v, hp, hv, hw⟩
    rw [htol] at hworse hnot
    rcases positive_cases hq with ⟨-, hpos⟩ | ⟨hsafe, hpos⟩ <;> rw [hpos] at hworse
    · exact hnot hworse
    · rcases htolerated hresets m hm p v hp hv hworse with hs | hw
      · rw [htol, hsafe] at hs
        cases hs
      · exact hnot (htol ▸ hw)

end Step

/-! ### All revisions -/

theorem valuesOf_nil (baseline : Metrics Num) (name : String) :
    valuesOf baseline [] name = (baseline.own name).toList := by
  cases h : baseline.own name <;> simp [valuesOf, h]

theorem valuesOf_snoc (baseline : Metrics Num) (counted : List (Evaluation Num))
    (e : Evaluation Num) (name : String) :
    valuesOf baseline (counted ++ [e]) name =
      valuesOf baseline counted name ++ (e.aggregateMetrics.own name).toList := by
  unfold valuesOf
  rw [map_append, ← cons_append, filterMap_append]
  cases h : e.aggregateMetrics.own name <;> simp [h]

/-- What holds behind every revision: the streak belongs to the evaluations that have counted, and
the best values are theirs. -/
def Kept (d : Doubles) (texts : Texts) (metrics : List (Metric Num)) (baseline : Metrics Num)
    (entries : List RevisionEvaluation) (state : ImprovementState) : Prop :=
  ∃ counted, History d texts metrics baseline entries counted state.noImprovementStreak ∧
    ∀ m ∈ metrics, Best texts m (valuesOf baseline counted m.name) (state.best.own m.name)

theorem improveBy_kept {baseline : Metrics Num} {entries : List RevisionEvaluation}
    {state : ImprovementState} {entry : RevisionEvaluation}
    (hnodup : (metrics.map Metric.name).Nodup)
    (haccepted : ∀ m ∈ metrics, ∃ q : ℚ, 0 ≤ q ∧ tolerance m = .fin q)
    (hregular : Regular d texts metrics state.best entry)
    (h : Kept d texts metrics baseline entries state) :
    Kept d texts metrics baseline (entries ++ [entry]) (improveBy d texts metrics state entry) := by
  obtain ⟨counted, hhistory, hbest⟩ := h
  unfold improveBy
  cases husable : entry.usable with
  | none =>
    refine ⟨counted, .missed hhistory hbest fun e hresets => ?_, hbest⟩
    cases husable.symm.trans hresets.usable
  | some e =>
    have hiff := resets_iff haccepted hregular husable
    have hmeasured := (hregular e husable).1
    dsimp only
    split
    case isTrue hcounts =>
      refine ⟨counted ++ [e], .reset hhistory hbest (hiff.mp hcounts), fun m hm => ?_⟩
      have hnames : ((changes d texts metrics state.best e).map Prod.fst).Nodup := by
        rwa [changes, map_map]
      have hproto : ∀ c ∈ changes d texts metrics state.best e, c.1 ≠ "__proto__" := by
        simpa [changes] using fun m hm => (hmeasured m hm).name
      have hown : ((changes d texts metrics state.best e).foldl store state.best).own m.name = _ :=
        own_foldl_store hnames hproto (mem_map_of_mem hm)
      obtain ⟨-, hreadBest, hreadValue, hnumeric⟩ := hmeasured m hm
      have hnext := (hbest m hm).next (d := d) hnumeric
      rw [valueOf_own hreadBest, valueOf_own hreadValue] at hown
      rw [valuesOf_snoc, hown]
      cases hv : e.aggregateMetrics.own m.name with
      | none =>
        rw [hv] at hnext
        simpa [evaluateMetric] using hnext
      | some v =>
        rw [hv] at hnext
        cases hp : state.best.own m.name <;> rw [hp] at hnext <;> exact hnext
    case isFalse hmisses =>
      refine ⟨counted, .missed hhistory hbest fun f hresets => hmisses (hiff.mpr ?_), hbest⟩
      obtain rfl : e = f := Option.some.inj (husable.symm.trans hresets.usable)
      exact hresets

theorem kept_start (d : Doubles) (texts : Texts) (metrics : List (Metric Num))
    (baseline : Metrics Num) : Kept d texts metrics baseline [] ⟨baseline, 0, none⟩ := by
  refine ⟨[], .start, fun m _ => ?_⟩
  rw [valuesOf_nil]
  cases baseline.own m.name with
  | none => rfl
  | some v => simpa [Best] using better_self m v

/-- When every revision is measured as it should be, the best metrics are the best ones over the
baseline and the revisions that count, and the streak is the number of revisions since the last of
these. -/
theorem deriveImprovementState_kept {value : Option (Value Num)} {metrics : List (Metric Num)}
    (hmetrics : normalizeMetrics (numbers d) value = ([], metrics)) (baseline : Metrics Num)
    (entries : List RevisionEvaluation)
    (hregular : ∀ before entry behind, entries = before ++ entry :: behind →
      Regular d texts metrics (deriveImprovementState d texts metrics baseline before).best entry) :
    Kept d texts metrics baseline entries
      (deriveImprovementState d texts metrics baseline entries) := by
  obtain ⟨hnodup, haccepted⟩ := normalizeMetrics_accepted hmetrics
  induction entries using List.reverseRecOn with
  | nil => exact kept_start d texts metrics baseline
  | append_singleton entries entry ih =>
    have hbefore := ih fun before other behind hsplit =>
      hregular before other (behind ++ [entry]) (by simp [hsplit])
    unfold deriveImprovementState at hbefore ⊢
    rw [foldl_append]
    exact improveBy_kept hnodup haccepted (hregular entries entry [] rfl) hbefore

/-! ### A fraction as tolerance -/

/-- A required score that may fall by a half, and a speed. -/
def scoreContract : Option (Value Num) :=
  some (.array [
    .object [("name", .string "score"), ("direction", .string "maximize"),
      ("required", .bool true), ("baselineTolerance", .number (.fin (1 / 2))),
      ("weight", .number (.nat 1))],
    .object [("name", .string "speed"), ("direction", .string "maximize"),
      ("required", .bool false), ("baselineTolerance", .number (.nat 0)),
      ("weight", .number (.nat 1))]])

def scoreMetrics : List (Metric Num) := (normalizeMetrics (numbers default) scoreContract).2

def scores (score speed : ℚ) : Metrics Num :=
  [("score", .number (.fin score)), ("speed", .number (.fin speed))]

def promotedWith (score speed : ℚ) : RevisionEvaluation where
  revision := 1
  outcome := .promoted
  evaluation := some ⟨[], scores score speed, []⟩

/-- Texts that hold no numbers, all of one rank. -/
def plainTexts : Texts where
  number _ := .nan
  less _ _ := false
  less_irrefl _ := rfl
  text _ := ""
  inherited _ := ""

theorem scoreContract_accepted :
    normalizeMetrics (numbers default) scoreContract = ([], scoreMetrics) :=
  Prod.ext (by decide +kernel) rfl

theorem history_nil {baseline : Metrics Num} {counted : List (Evaluation Num)} {n : ℕ}
    (h : History d texts metrics baseline [] counted n) : counted = [] := by
  generalize hnil : ([] : List RevisionEvaluation) = entries at h
  cases h with
  | start => rfl
  | reset => simp at hnil
  | missed => simp at hnil

theorem best_toList {o b : Option (MetricValue Num)} (h : Best texts m o.toList b) : b = o := by
  cases b with
  | none => cases o with
    | none => rfl
    | some v => cases h
  | some v => cases o with
    | none => cases h.1
    | some w => exact congrArg some (mem_singleton.mp h.1)

/-- A score that falls by half of its tolerance, with a speed that is better than ever: the streak
goes on. -/
theorem fraction_missed :
    normalizeMetrics (numbers default) scoreContract = ([], scoreMetrics) ∧
      ¬ Kept default plainTexts scoreMetrics (scores 1 1) [promotedWith (3 / 4) 2]
        (deriveImprovementState default plainTexts scoreMetrics (scores 1 1)
          [promotedWith (3 / 4) 2]) := by
  refine ⟨scoreContract_accepted, ?_⟩
  rintro ⟨counted, hhistory, -⟩
  have hstreak : (deriveImprovementState default plainTexts scoreMetrics (scores 1 1)
      [promotedWith (3 / 4) 2]).noImprovementStreak = 1 := by decide +kernel
  rw [hstreak] at hhistory
  generalize hone : [promotedWith (3 / 4) 2] = entries at hhistory
  generalize hn : 1 = n at hhistory
  cases hhistory with
  | start => cases hone
  | reset => cases hn
  | @missed entries counted n best entry h hbest hkept =>
    obtain ⟨rfl, hentry⟩ := append_inj' ((nil_append _).trans hone) rfl
    obtain rfl : promotedWith (3 / 4) 2 = entry := by simpa using hentry
    obtain rfl := history_nil h
    have hown : ∀ m ∈ scoreMetrics, best m.name = (scores 1 1).own m.name := fun m hm =>
      best_toList (valuesOf_nil (scores 1 1) m.name ▸ hbest m hm)
    have himproved : ∃ m ∈ scoreMetrics, improves plainTexts m ((scores 1 1).own m.name)
        ((scores (3 / 4) 2).own m.name) = true :=
      any_eq_true.mp (by decide +kernel)
    have hnear : ∀ m ∈ scoreMetrics, fallsBehind default plainTexts m ((scores 1 1).own m.name)
        ((scores (3 / 4) 2).own m.name) = false := by
      have hall : (scoreMetrics.all fun m => !fallsBehind default plainTexts m
        ((scores 1 1).own m.name) ((scores (3 / 4) 2).own m.name)) = true := by decide +kernel
      simpa using hall
    obtain ⟨m, hm, hbetter⟩ := himproved
    exact hkept ⟨[], scores (3 / 4) 2, []⟩
      ⟨rfl, ⟨m, hm, hown m hm ▸ hbetter⟩, fun m hm => hown m hm ▸ hnear m hm⟩

/-- A score and a speed that are both better than ever. -/
theorem deriveImprovementState_kept_better :
    normalizeMetrics (numbers default) scoreContract = ([], scoreMetrics) ∧
      Kept default plainTexts scoreMetrics (scores 1 1) [promotedWith 2 2]
        (deriveImprovementState default plainTexts scoreMetrics (scores 1 1)
          [promotedWith 2 2]) := by
  refine ⟨scoreContract_accepted,
    deriveImprovementState_kept scoreContract_accepted _ _ fun before entry behind hsplit => ?_⟩
  obtain ⟨rfl, rfl, -⟩ : before = [] ∧ entry = promotedWith 2 2 ∧ behind = [] := by
    cases before with
    | nil => simpa [eq_comm] using hsplit
    | cons first before => simp at hsplit
  intro e husable
  obtain rfl : ⟨[], scores 2 2, []⟩ = e := Option.some.inj husable
  have hnames : ∀ m ∈ scoreMetrics, m.name = "score" ∨ m.name = "speed" := by
    have hall : (scoreMetrics.all fun m => m.name = "score" || m.name = "speed") = true := by decide
    simpa using hall
  have hnone : ∀ m ∈ scoreMetrics, ∀ p ∈ (scores 1 1).own m.name, ∀ v ∈ (scores 2 2).own m.name,
      worse default plainTexts m (.nat 0) p v = false := by
    have hall : (scoreMetrics.all fun m => ((scores 1 1).own m.name).all fun p =>
        ((scores 2 2).own m.name).all fun v =>
          !worse default plainTexts m (.nat 0) p v) = true := by decide +kernel
    simpa [Option.all_eq_true] using hall
  refine ⟨fun m hm => ?_, fun _ m hm p v hp hv hworse => ?_⟩
  · rcases hnames m hm with hname | hname <;>
      refine ⟨by rw [hname]; decide, by rw [hname]; nofun, by rw [hname]; nofun,
        fun v hv _ => ?_⟩ <;>
      rw [hname] at hv <;> rcases hv with hv | hv <;>
      exact ⟨_, Num.noConfusion, (Option.some.inj hv).symm⟩
  · rw [hnone m hm p hp v hv] at hworse
    cases hworse

end Ds4Studio.Evolution.Improvement
