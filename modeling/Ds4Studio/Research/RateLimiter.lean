import Ds4Studio.Lib.Run
import Mathlib.Data.List.Basic
import Mathlib.Data.List.Induction
import Mathlib.Tactic.Linarith

/-!
The rate limiter of the search providers: a cap on the grants of the last minute and one on the
grants that are held at once. The clock is read anew at every place that asks for the time.
-/

namespace Ds4Studio.Research.RateLimiter

open List Function

structure Limit where
  perMinute : ℕ
  concurrent : ℕ

/-- What is kept of a provider, and around it the pending timers, the grants that are held and all
grants with their times. A caller is named by its place among the calls of `acquire`. -/
structure Provider where
  active : ℤ
  timestamps : List ℚ
  waiters : List ℕ
  timers : ℕ
  calls : ℕ
  held : List ℕ
  granted : List (ℕ × ℚ)

inductive Action where
  | acquire
  /-- the callback of a grant -/
  | release (caller : ℕ)
  | timer

namespace Provider

def new : Provider := ⟨0, [], [], 0, 0, [], []⟩

/-- The timestamps that `#canProceed` leaves. -/
def prune (now : ℚ) (p : Provider) : Provider :=
  { p with timestamps := p.timestamps.filter fun timestamp => now - 60000 < timestamp }

/-- What `#canProceed` returns of the timestamps that it left. -/
def canProceed (limit : Limit) (p : Provider) : Bool :=
  p.active < limit.concurrent && p.timestamps.length < limit.perMinute

def grant (caller : ℕ) (now : ℚ) (p : Provider) : Provider :=
  { p with
    active := p.active + 1
    timestamps := p.timestamps ++ [now]
    held := p.held ++ [caller]
    granted := p.granted ++ [(caller, now)] }

/-- The loop of `#pump` over the waiters, with the number of clock readings before and after. -/
def drain (clock : ℕ → ℚ) (limit : Limit) : List ℕ → ℕ → Provider → ℕ × Provider
  | [], reads, p => (reads, { p with waiters := [] })
  | caller :: waiters, reads, p =>
      let p := p.prune (clock reads)
      if p.canProceed limit then
        drain clock limit waiters (reads + 2) (p.grant caller (clock (reads + 1)))
      else (reads + 1, { p with waiters := caller :: waiters })

/-- The end of `#pump` -/
def setTimer (limit : Limit) (p : Provider) : Provider :=
  if p.waiters ≠ [] ∧ p.active < limit.concurrent then { p with timers := p.timers + 1 } else p

def pump (clock : ℕ → ℚ) (limit : Limit) (reads : ℕ) (p : Provider) : ℕ × Provider :=
  let (reads, p) := drain clock limit p.waiters reads p
  (reads, p.setTimer limit)

/-- A call of `acquire` -/
def arrive (p : Provider) : Provider := { p with calls := p.calls + 1 }

def wait (caller : ℕ) (p : Provider) : Provider := { p with waiters := p.waiters ++ [caller] }

def acquire (clock : ℕ → ℚ) (limit : Limit) (reads : ℕ) (p : Provider) : ℕ × Provider :=
  let arrived := p.arrive.prune (clock reads)
  if arrived.canProceed limit then (reads + 2, arrived.grant p.calls (clock (reads + 1)))
  else (arrived.wait p.calls).pump clock limit (reads + 1)

/-- The grant of the caller is no longer held. -/
def leave (caller : ℕ) (p : Provider) : Provider :=
  { p with active := p.active - 1, held := p.held.erase caller }

def release (clock : ℕ → ℚ) (limit : Limit) (caller reads : ℕ) (p : Provider) : ℕ × Provider :=
  if caller ∈ p.held then (p.leave caller).pump clock limit reads else (reads, p)

def fire (clock : ℕ → ℚ) (limit : Limit) (reads : ℕ) (p : Provider) : ℕ × Provider :=
  if 0 < p.timers then { p with timers := p.timers - 1 }.pump clock limit reads else (reads, p)

def act (clock : ℕ → ℚ) (limit : Limit) (reads : ℕ) (p : Provider) : Action → ℕ × Provider
  | .acquire => acquire clock limit reads p
  | .release caller => release clock limit caller reads p
  | .timer => fire clock limit reads p

end Provider

variable {κ : Type} [DecidableEq κ]

/-- The configured limits, and the one that is named `default`. -/
structure Limits (κ : Type) where
  named : κ → Option Limit
  default : Option Limit

def Limits.limitFor (limits : Limits κ) (name : κ) : Limit :=
  ((limits.named name).or limits.default).getD ⟨60, 4⟩

/-- The providers, and how often the clock has been read. -/
structure State (κ : Type) where
  reads : ℕ
  provider : κ → Provider

def State.new : State κ := ⟨0, fun _ => .new⟩

structure Event (κ : Type) where
  name : κ
  action : Action

def step (clock : ℕ → ℚ) (limits : Limits κ) (s : State κ) (e : Event κ) : State κ :=
  let (reads, p) := (s.provider e.name).act clock (limits.limitFor e.name) s.reads e.action
  ⟨reads, update s.provider e.name p⟩

def run (clock : ℕ → ℚ) (limits : Limits κ) (events : List (Event κ)) : State κ :=
  events.foldl (step clock limits) .new

/-! ### What a fair limiter is -/

/-- The grants of the minute that begins at a time. -/
def Provider.grantsFrom (p : Provider) (time : ℚ) : List (ℕ × ℚ) :=
  p.granted.filter fun g => time ≤ g.2 && g.2 < time + 60000

/-- The first waiter has a grant after the action, or a timer is pending because the minute up to
then is full. -/
def Wakes (clock : ℕ → ℚ) (limit : Limit) (reads : ℕ) (p : Provider) (action : Action) : Prop :=
  ∀ caller, p.waiters.head? = some caller →
    caller ∈ (p.act clock limit reads action).2.held ∨
      0 < (p.act clock limit reads action).2.timers ∧
        limit.perMinute ≤ (p.granted.filter fun g => clock reads - 60000 < g.2).length

structure Fair (clock : ℕ → ℚ) (limit : Limit) (reads : ℕ) (p : Provider) : Prop where
  bounded : p.held.length ≤ limit.concurrent
  windowed : ∀ time, (p.grantsFrom time).length ≤ limit.perMinute
  counted : p.active = p.held.length
  /-- Whoever called before a caller with a grant had one before. -/
  inOrder : p.granted.map Prod.fst = range p.granted.length
  /-- While a caller waits there is a release or a timer that wakes it. -/
  awake : p.waiters ≠ [] → p.held.length = limit.concurrent ∧ p.held ≠ [] ∧
      (∀ caller ∈ p.held, Wakes clock limit reads p (.release caller)) ∨
    0 < p.timers ∧ Wakes clock limit reads p .timer

/-! ### What every action keeps -/

def Provider.times (p : Provider) : List ℚ := p.granted.map Prod.snd

/-- The bookkeeping of a provider at a time that no grant is behind. -/
structure Kept (limit : Limit) (now : ℚ) (p : Provider) : Prop where
  bounded : p.held.length ≤ limit.concurrent
  counted : p.active = p.held.length
  past : ∀ t ∈ p.times, t ≤ now
  /-- Only what is out of the minute was pruned. -/
  recent : ∀ later, now ≤ later → p.timestamps.filter (fun t => later - 60000 < t) =
    p.times.filter fun t => later - 60000 < t
  windowed : ∀ time, (p.times.filter fun t => time ≤ t && t < time + 60000).length ≤
    limit.perMinute

variable {clock : ℕ → ℚ} {limit : Limit} {now later : ℚ} {p : Provider} {reads caller : ℕ}

theorem Kept.new (limit : Limit) (now : ℚ) : Kept limit now .new where
  bounded := Nat.zero_le _
  counted := rfl
  past := nofun
  recent _ _ := rfl
  windowed _ := Nat.zero_le _

section

variable (h : Kept limit now p)

include h

theorem Kept.mono (hlater : now ≤ later) : Kept limit later p where
  __ := h
  past t ht := (h.past t ht).trans hlater
  recent more hmore := h.recent more (hlater.trans hmore)

theorem Kept.with_waiters (waiters : List ℕ) (timers calls : ℕ) :
    Kept limit now { p with waiters := waiters, timers := timers, calls := calls } :=
  ⟨h.bounded, h.counted, h.past, h.recent, h.windowed⟩

theorem Kept.prune (hlater : now ≤ later) :
    Kept limit later (p.prune later) where
  __ := h.mono hlater
  recent more hmore := by
    change (p.timestamps.filter _).filter _ = p.times.filter _
    rw [← h.recent more (hlater.trans hmore), filter_filter]
    refine filter_congr fun t _ => ?_
    rw [Bool.and_eq_left_iff_imp, decide_eq_true_eq, decide_eq_true_eq]
    intro ht
    linarith

theorem Kept.length_recent :
    (p.times.filter fun t => now - 60000 < t).length ≤ p.timestamps.length := by
  rw [← h.recent now le_rfl]
  exact length_filter_le _ _

end

theorem canProceed_iff : p.canProceed limit = true ↔
    p.active < limit.concurrent ∧ p.timestamps.length < limit.perMinute := by
  rw [Provider.canProceed, Bool.and_eq_true, decide_eq_true_eq, decide_eq_true_eq]

theorem Kept.grant (h : Kept limit now p) (hlater : now ≤ later) (hcan : p.canProceed limit = true)
    (caller : ℕ) : Kept limit later (p.grant caller later) := by
  obtain ⟨hactive, hroom⟩ := canProceed_iff.mp hcan
  have htimes : (p.grant caller later).times = p.times ++ [later] := map_append
  constructor
  · rw [h.counted] at hactive
    change (p.held ++ [caller]).length ≤ limit.concurrent
    rw [length_append]
    exact_mod_cast hactive
  · change p.active + 1 = ((p.held ++ [caller]).length : ℤ)
    rw [h.counted, length_append]
    rfl
  · rw [htimes]
    intro t ht
    rcases mem_append.mp ht with ht | ht
    · exact (h.past t ht).trans hlater
    · exact (mem_singleton.mp ht).le
  · intro more hmore
    rw [htimes, filter_append, ← h.recent more (hlater.trans hmore)]
    exact filter_append ..
  · intro time
    rw [htimes, filter_append]
    by_cases hin : time ≤ later ∧ later < time + 60000
    · -- The grants of this minute are among those that were counted.
      have hsub : (p.times.filter fun t => time ≤ t && t < time + 60000).Sublist
          (p.times.filter fun t => now - 60000 < t) := by
        refine monotone_filter_right _ fun t ht => ?_
        rw [Bool.and_eq_true, decide_eq_true_eq] at ht
        rw [decide_eq_true_eq]
        linarith [ht.1, hin.2]
      have hlength := hsub.length_le.trans h.length_recent
      rw [filter_cons_of_pos (by simpa using hin), filter_nil, length_append, length_singleton]
      omega
    · rw [filter_cons_of_neg (by simpa using hin), filter_nil, append_nil]
      exact h.windowed time

/-! ### The loop over the waiters -/

/-- What a loop over waiters does, from and to a provider. -/
structure Drained (clock : ℕ → ℚ) (limit : Limit) (waiters : List ℕ) (reads : ℕ) (p : Provider)
    (reads' : ℕ) (p' : Provider) : Prop where
  later : reads ≤ reads'
  kept : Kept limit (clock reads') p'
  timers : p'.timers = p.timers
  calls : p'.calls = p.calls
  ids : p'.granted.map Prod.fst ++ p'.waiters = p.granted.map Prod.fst ++ waiters
  grants : p.granted <+: p'.granted
  held : p.held <+: p'.held
  first : ∀ caller, waiters.head? = some caller → p.active < limit.concurrent →
    caller ∈ p'.held ∨ (p'.waiters ≠ [] ∧ p'.active < limit.concurrent) ∧
      limit.perMinute ≤ (p.times.filter fun t => clock reads - 60000 < t).length

/-- Where no grant is given though not all are held, the minute is full. -/
theorem Kept.full (h : Kept limit now p) (hcan : ¬(p.prune now).canProceed limit = true)
    (hactive : p.active < limit.concurrent) :
    limit.perMinute ≤ (p.times.filter fun t => now - 60000 < t).length := by
  rw [canProceed_iff, not_and, not_lt] at hcan
  rw [← h.recent now le_rfl]
  exact hcan hactive

theorem drain_grant (h : (p.prune (clock reads)).canProceed limit = true) (waiters : List ℕ) :
    p.drain clock limit (caller :: waiters) reads =
      ((p.prune (clock reads)).grant caller (clock (reads + 1))).drain clock limit waiters
        (reads + 2) :=
  if_pos h

theorem drain_stop (h : ¬(p.prune (clock reads)).canProceed limit = true) (waiters : List ℕ) :
    p.drain clock limit (caller :: waiters) reads =
      (reads + 1, { p.prune (clock reads) with waiters := caller :: waiters }) :=
  if_neg h

theorem drained (hclock : Monotone clock) (waiters : List ℕ) (h : Kept limit (clock reads) p) :
    Drained clock limit waiters reads p (p.drain clock limit waiters reads).1
      (p.drain clock limit waiters reads).2 := by
  induction waiters generalizing reads p with
  | nil =>
    exact ⟨le_rfl, h.with_waiters _ _ _, rfl, rfl, rfl, prefix_rfl, prefix_rfl, nofun⟩
  | cons caller waiters ih =>
    have hpruned : Kept limit (clock reads) (p.prune (clock reads)) := h.prune le_rfl
    by_cases hcan : (p.prune (clock reads)).canProceed limit = true
    · rw [drain_grant hcan]
      have hgrant := hpruned.grant (hclock (Nat.le_succ reads)) hcan caller
      have hrest := ih (hgrant.mono (hclock (Nat.le_succ (reads + 1))))
      refine ⟨(Nat.le_add_right reads 2).trans hrest.later, hrest.kept, hrest.timers, hrest.calls,
        ?_, (prefix_append ..).trans hrest.grants, (prefix_append ..).trans hrest.held,
        fun caller' hhead _ => .inl ?_⟩
      · rw [hrest.ids]
        simp [Provider.grant, Provider.prune]
      · cases hhead
        exact hrest.held.subset (mem_append_right _ mem_cons_self)
    · rw [drain_stop hcan]
      exact ⟨Nat.le_succ _, (hpruned.mono (hclock (Nat.le_succ reads))).with_waiters _ _ _, rfl,
        rfl, rfl, prefix_rfl, prefix_rfl, fun _ _ hactive =>
          .inr ⟨⟨cons_ne_nil _ _, hactive⟩, h.full hcan hactive⟩⟩

/-! ### The actions -/

/-- While a caller waits all places are taken, or a timer is pending. -/
def Awake (limit : Limit) (p : Provider) : Prop :=
  p.waiters ≠ [] → (limit.concurrent : ℤ) ≤ p.active ∨ 0 < p.timers

theorem pump_eq (p : Provider) : p.pump clock limit reads =
    ((p.drain clock limit p.waiters reads).1,
      (p.drain clock limit p.waiters reads).2.setTimer limit) := rfl

/-- What `#pump` does: what its loop does, and then it leaves a timer or all places taken. -/
structure Pumped (clock : ℕ → ℚ) (limit : Limit) (reads : ℕ) (p : Provider) (reads' : ℕ)
    (p' : Provider) : Prop where
  later : reads ≤ reads'
  kept : Kept limit (clock reads') p'
  awake : Awake limit p'
  calls : p'.calls = p.calls
  ids : p'.granted.map Prod.fst ++ p'.waiters = p.granted.map Prod.fst ++ p.waiters
  grants : p.granted <+: p'.granted
  first : ∀ caller, p.waiters.head? = some caller → p.active < limit.concurrent →
    caller ∈ p'.held ∨ 0 < p'.timers ∧
      limit.perMinute ≤ (p.times.filter fun t => clock reads - 60000 < t).length

theorem pumped (hclock : Monotone clock) (h : Kept limit (clock reads) p) :
    Pumped clock limit reads p (p.pump clock limit reads).1 (p.pump clock limit reads).2 := by
  have hdrained := drained hclock p.waiters h
  rw [pump_eq]
  rw [Provider.setTimer]
  split_ifs with htimer
  · refine ⟨hdrained.later, hdrained.kept.with_waiters _ _ _, fun _ => .inr (Nat.succ_pos _),
      hdrained.calls, hdrained.ids, hdrained.grants, fun caller hhead hactive => ?_⟩
    exact (hdrained.first caller hhead hactive).imp_right fun hfull =>
      ⟨Nat.succ_pos _, hfull.2⟩
  · refine ⟨hdrained.later, hdrained.kept, fun hwaiters => .inl ?_, hdrained.calls, hdrained.ids,
      hdrained.grants, fun caller hhead hactive => ?_⟩
    · exact not_lt.mp fun hactive => htimer ⟨hwaiters, hactive⟩
    · exact (hdrained.first caller hhead hactive).imp_right fun hfull => absurd hfull.1 htimer

/-- What every action does to a provider with its bookkeeping. -/
structure Acted (clock : ℕ → ℚ) (limit : Limit) (reads : ℕ) (granted : List (ℕ × ℚ))
    (reads' : ℕ) (p' : Provider) : Prop where
  later : reads ≤ reads'
  kept : Kept limit (clock reads') p'
  awake : Awake limit p'
  grants : granted <+: p'.granted

variable {p' : Provider}

theorem Pumped.acted {reads' : ℕ} (h : Pumped clock limit reads p reads' p') :
    Acted clock limit reads p.granted reads' p' :=
  ⟨h.later, h.kept, h.awake, h.grants⟩

theorem acquire_grant (h : (p.arrive.prune (clock reads)).canProceed limit = true) :
    p.acquire clock limit reads =
      (reads + 2, (p.arrive.prune (clock reads)).grant p.calls (clock (reads + 1))) :=
  if_pos h

theorem acquire_wait (h : ¬(p.arrive.prune (clock reads)).canProceed limit = true) :
    p.acquire clock limit reads =
      ((p.arrive.prune (clock reads)).wait p.calls).pump clock limit (reads + 1) :=
  if_neg h

theorem Kept.arrive (h : Kept limit (clock reads) p) :
    Kept limit (clock reads) (p.arrive.prune (clock reads)) :=
  (h.with_waiters p.waiters p.timers (p.calls + 1)).prune le_rfl

theorem Kept.wait (h : Kept limit now p) (caller : ℕ) : Kept limit now (p.wait caller) :=
  h.with_waiters _ _ _

theorem Kept.leave (h : Kept limit now p) (hheld : caller ∈ p.held) :
    Kept limit now (p.leave caller) where
  bounded := (length_erase_le ..).trans h.bounded
  counted := by
    have hpos : 0 < p.held.length := length_pos_of_mem hheld
    change p.active - 1 = ((p.held.erase caller).length : ℤ)
    rw [h.counted, length_erase_of_mem hheld, Nat.cast_sub hpos]
    rfl
  past := h.past
  recent := h.recent
  windowed := h.windowed

theorem acted (hclock : Monotone clock) (h : Kept limit (clock reads) p) (hawake : Awake limit p)
    (action : Action) :
    Acted clock limit reads p.granted (p.act clock limit reads action).1
      (p.act clock limit reads action).2 := by
  have hnext : clock reads ≤ clock (reads + 1) := hclock (Nat.le_succ reads)
  cases action with
  | acquire =>
    rw [Provider.act]
    by_cases hcan : (p.arrive.prune (clock reads)).canProceed limit = true
    · rw [acquire_grant hcan]
      have hgrant := (h.arrive.grant hnext hcan p.calls).mono (hclock (Nat.le_succ (reads + 1)))
      refine ⟨Nat.le_add_right reads 2, hgrant, fun hwaiters => ?_, prefix_append ..⟩
      exact (hawake hwaiters).imp_left fun hfull => hfull.trans (Int.le_add_one le_rfl)
    · rw [acquire_wait hcan]
      have hpump := pumped hclock ((h.arrive.mono hnext).wait p.calls)
      exact ⟨(Nat.le_succ reads).trans hpump.later, hpump.kept, hpump.awake, hpump.grants⟩
  | release caller =>
    rw [Provider.act, Provider.release]
    split_ifs with hheld
    · exact (pumped hclock (h.leave hheld)).acted
    · exact ⟨le_rfl, h, hawake, prefix_rfl⟩
  | timer =>
    rw [Provider.act, Provider.fire]
    split_ifs with htimer
    · exact (pumped hclock (h.with_waiters p.waiters (p.timers - 1) p.calls)).acted
    · exact ⟨le_rfl, h, hawake, prefix_rfl⟩

/-! ### The order of the grants -/

/-- The callers with a grant and then those who wait are all that called, in their order. -/
def Ordered (p : Provider) : Prop := p.granted.map Prod.fst ++ p.waiters = range p.calls

/-- A caller that does not wait is granted at once, past those who wait. -/
def Jumps (clock : ℕ → ℚ) (limit : Limit) (reads : ℕ) (p : Provider) : Action → Prop
  | .acquire => p.waiters ≠ [] ∧ (p.arrive.prune (clock reads)).canProceed limit = true
  | .release _ | .timer => False

def InOrder (p : Provider) : Prop := p.granted.map Prod.fst = range p.granted.length

theorem eq_range_of_append {l m : List ℕ} {n : ℕ} (h : l ++ m = range n) : l = range l.length := by
  have hlength := congrArg length h
  rw [length_append, length_range] at hlength
  have htake := congrArg (take l.length) h
  rwa [take_left, take_range, min_eq_left (by omega)] at htake

theorem Ordered.inOrder (h : Ordered p) : InOrder p := by
  have hids := eq_range_of_append h
  rwa [length_map] at hids

theorem InOrder.of_prefix (h : InOrder p') (hgrants : p.granted <+: p'.granted) : InOrder p := by
  obtain ⟨more, hmore⟩ := hgrants
  rw [InOrder, ← hmore, map_append] at h
  have hids := eq_range_of_append h
  rwa [length_map] at hids

theorem Ordered.act (hclock : Monotone clock) (h : Kept limit (clock reads) p)
    (hordered : Ordered p) {action : Action} (hjumps : ¬Jumps clock limit reads p action) :
    Ordered (p.act clock limit reads action).2 := by
  cases action with
  | acquire =>
    rw [Provider.act]
    by_cases hcan : (p.arrive.prune (clock reads)).canProceed limit = true
    · rw [acquire_grant hcan]
      have hwaiters : p.waiters = [] := by
        by_contra hne
        exact hjumps ⟨hne, hcan⟩
      rw [Ordered, hwaiters, append_nil] at hordered
      change (p.granted ++ [(p.calls, _)]).map Prod.fst ++ p.waiters = range (p.calls + 1)
      rw [hwaiters, append_nil, map_append, range_succ]
      exact congrArg (· ++ [p.calls]) hordered
    · rw [acquire_wait hcan]
      have hpump := pumped hclock ((h.arrive.mono (hclock (Nat.le_succ reads))).wait p.calls)
      rw [Ordered, hpump.ids, hpump.calls]
      change p.granted.map Prod.fst ++ (p.waiters ++ [p.calls]) = range (p.calls + 1)
      rw [← append_assoc, hordered, range_succ]
  | release caller =>
    rw [Provider.act, Provider.release]
    split_ifs with hheld
    · have hpump := pumped hclock (h.leave hheld)
      rw [Ordered, hpump.ids, hpump.calls]
      exact hordered
    · exact hordered
  | timer =>
    rw [Provider.act, Provider.fire]
    split_ifs with htimer
    · have hpump := pumped hclock (h.with_waiters p.waiters (p.timers - 1) p.calls)
      rw [Ordered, hpump.ids, hpump.calls]
      exact hordered
    · exact hordered

theorem not_inOrder_of_jumps (hordered : Ordered p) {action : Action}
    (hjumps : Jumps clock limit reads p action) : ¬InOrder (p.act clock limit reads action).2 := by
  cases action with
  | release caller => exact hjumps.elim
  | timer => exact hjumps.elim
  | acquire =>
    obtain ⟨hwaiters, hcan⟩ := hjumps
    intro h
    rw [Provider.act, acquire_grant hcan] at h
    have hids : (p.granted ++ [(p.calls, clock (reads + 1))]).map Prod.fst =
        range (p.granted ++ [(p.calls, clock (reads + 1))]).length := h
    rw [map_append, length_append, length_singleton, range_succ] at hids
    have hcalls : p.calls = p.granted.length := (cons.inj (append_inj' hids rfl).2).1
    have hlength := congrArg length hordered
    rw [length_append, length_map, length_range] at hlength
    exact hwaiters (eq_nil_of_length_eq_zero (by omega))

/-! ### Runs -/

theorem length_times (p : Provider) (f : ℚ → Bool) :
    (p.times.filter f).length = (p.granted.filter fun g => f g.2).length := by
  rw [Provider.times, filter_map, length_map]
  rfl

/-- An action that frees a place, or finds one free, wakes the first waiter. -/
theorem Pumped.wakes {reads' : ℕ} (h : Pumped clock limit reads p reads' p')
    (hactive : p.active < limit.concurrent) {caller : ℕ} (hhead : p.waiters.head? = some caller) :
    caller ∈ p'.held ∨ 0 < p'.timers ∧
      limit.perMinute ≤ (p.granted.filter fun g => clock reads - 60000 < g.2).length := by
  rw [← length_times p fun t => clock reads - 60000 < t]
  exact h.first caller hhead hactive

theorem Kept.fair (hclock : Monotone clock) (hlimit : 1 ≤ limit.concurrent)
    (h : Kept limit (clock reads) p) (hawake : Awake limit p) (hinOrder : InOrder p) :
    Fair clock limit reads p where
  bounded := h.bounded
  windowed time := by
    rw [Provider.grantsFrom, ← length_times p fun t => time ≤ t && t < time + 60000]
    exact h.windowed time
  counted := h.counted
  inOrder := hinOrder
  awake hwaiters := by
    have hbounded := h.bounded
    have hcounted := h.counted
    by_cases hactive : p.active < limit.concurrent
    · have htimer : 0 < p.timers := (hawake hwaiters).resolve_left (not_le.mpr hactive)
      refine .inr ⟨htimer, fun caller hhead => ?_⟩
      rw [Provider.act, Provider.fire, if_pos htimer]
      exact (pumped hclock (h.with_waiters p.waiters (p.timers - 1) p.calls)).wakes hactive hhead
    · refine .inl ⟨by omega, ne_nil_of_length_pos (by omega),
        fun caller hheld caller' hhead => ?_⟩
      rw [Provider.act, Provider.release, if_pos hheld]
      refine (pumped hclock (h.leave hheld)).wakes ?_ hhead
      change p.active - 1 < limit.concurrent
      omega

theorem State.step_provider (s : State κ) (limits : Limits κ) (e : Event κ) :
    (step clock limits s e).provider = update s.provider e.name
      ((s.provider e.name).act clock (limits.limitFor e.name) s.reads e.action).2 := rfl

/-- The bookkeeping of all providers. -/
def AllKept (clock : ℕ → ℚ) (limits : Limits κ) (s : State κ) : Prop :=
  ∀ name, Kept (limits.limitFor name) (clock s.reads) (s.provider name) ∧
    Awake (limits.limitFor name) (s.provider name)

variable {limits : Limits κ} {s : State κ}

theorem AllKept.step (hclock : Monotone clock) (h : AllKept clock limits s) (e : Event κ) :
    AllKept clock limits (step clock limits s e) := by
  have hacted := acted hclock (h e.name).1 (h e.name).2 e.action
  intro name
  rw [State.step_provider]
  by_cases hname : name = e.name
  · subst hname
    rw [update_self]
    exact ⟨hacted.kept, hacted.awake⟩
  · rw [update_of_ne hname]
    exact ⟨(h name).1.mono (hclock hacted.later), (h name).2⟩

theorem allKept_run (hclock : Monotone clock) (limits : Limits κ) (events : List (Event κ)) :
    AllKept clock limits (run clock limits events) := by
  induction events using reverseRecOn with
  | nil => exact fun name => ⟨.new _ _, fun hwaiters => absurd rfl hwaiters⟩
  | append_singleton events e ih =>
    rw [run, foldl_append]
    exact ih.step hclock e

/-- A caller is granted past those who wait for the same provider. -/
def State.Jumps (clock : ℕ → ℚ) (limits : Limits κ) (s : State κ) (e : Event κ) : Prop :=
  RateLimiter.Jumps clock (limits.limitFor e.name) s.reads (s.provider e.name) e.action

theorem ordered_step {e : Event κ} (hclock : Monotone clock) (hkept : AllKept clock limits s)
    (h : ∀ name, Ordered (s.provider name)) (hjumps : ¬s.Jumps clock limits e) (name : κ) :
    Ordered ((step clock limits s e).provider name) := by
  rw [State.step_provider]
  by_cases hname : name = e.name
  · subst hname
    rw [update_self]
    exact (h e.name).act hclock (hkept e.name).1 hjumps
  · rw [update_of_ne hname]
    exact h name

theorem inOrder_of_step {e : Event κ} (hclock : Monotone clock) (hkept : AllKept clock limits s)
    (h : ∀ name, InOrder ((step clock limits s e).provider name)) (name : κ) :
    InOrder (s.provider name) := by
  have hname := h name
  rw [State.step_provider] at hname
  by_cases heq : name = e.name
  · subst heq
    rw [update_self] at hname
    exact hname.of_prefix (acted hclock (hkept e.name).1 (hkept e.name).2 e.action).grants
  · rwa [update_of_ne heq] at hname

theorem ordered_run (hclock : Monotone clock) (limits : Limits κ) (events : List (Event κ)) :
    ((∀ name, InOrder ((run clock limits events).provider name)) ↔
      Run.Each (step clock limits) (fun s e => ¬s.Jumps clock limits e) .new events) ∧
    (Run.Each (step clock limits) (fun s e => ¬s.Jumps clock limits e) .new events →
      ∀ name, Ordered ((run clock limits events).provider name)) := by
  induction events using reverseRecOn with
  | nil => exact ⟨⟨fun _ => trivial, fun _ name => rfl⟩, fun _ name => rfl⟩
  | append_singleton events e ih =>
    have hkept := allKept_run hclock limits events
    have hrun : run clock limits (events ++ [e]) =
        step clock limits (run clock limits events) e := by
      rw [run, foldl_append]
      rfl
    have hordered : Run.Each (step clock limits) (fun s e => ¬s.Jumps clock limits e) .new
        (events ++ [e]) → ∀ name, Ordered ((run clock limits (events ++ [e])).provider name) := by
      intro heach
      obtain ⟨hfront, hlast, -⟩ := (Run.each_append events [e]).mp heach
      rw [hrun]
      exact ordered_step hclock hkept (ih.2 hfront) hlast
    refine ⟨⟨fun h => ?_, fun heach name => (hordered heach name).inOrder⟩, hordered⟩
    rw [hrun] at h
    have hfront := ih.1.mp (inOrder_of_step hclock hkept h)
    refine (Run.each_append events [e]).mpr ⟨hfront, fun hjumps => ?_, trivial⟩
    refine not_inOrder_of_jumps (ih.2 hfront e.name) hjumps ?_
    have hname := h e.name
    rwa [State.step_provider, update_self] at hname

/-- Every provider is fair after a run just if no caller is granted at once while another one
waits. -/
theorem limiter_fair_iff {clock : ℕ → ℚ} (hclock : Monotone clock) (limits : Limits κ)
    (hlimits : ∀ name, 1 ≤ (limits.limitFor name).concurrent) (events : List (Event κ)) :
    (∀ name, Fair clock (limits.limitFor name) (run clock limits events).reads
        ((run clock limits events).provider name)) ↔
      Run.Each (step clock limits) (fun s e => ¬s.Jumps clock limits e) .new events := by
  rw [← (ordered_run hclock limits events).1]
  have hkept := allKept_run hclock limits events
  exact ⟨fun h name => (h name).inOrder, fun h name =>
    (hkept name).1.fair hclock (hlimits name) (hkept name).2 (h name)⟩

/-- One grant in a minute, and one that is held. -/
def one : Limits Unit := ⟨fun _ => none, some ⟨1, 1⟩⟩

theorem limiter_fair_still : Fair (fun _ => 0) (one.limitFor ())
    (run (fun _ => 0) one [⟨(), .acquire⟩, ⟨(), .acquire⟩, ⟨(), .release 0⟩]).reads
    ((run (fun _ => 0) one [⟨(), .acquire⟩, ⟨(), .acquire⟩, ⟨(), .release 0⟩]).provider ()) := by
  apply (limiter_fair_iff monotone_const one (fun _ => le_rfl) _).mpr
  refine ⟨?_, ?_, ?_, trivial⟩
  · exact fun h => h.1 rfl
  · exact fun h => h.1 rfl
  · exact not_false

/-- A minute passes before the third caller comes. -/
def minuteLater : ℕ → ℚ := fun n => if n < 5 then 0 else 60001

/-- The third caller is granted while the second one waits. -/
theorem limiter_jumped : ¬∀ (clock : ℕ → ℚ), Monotone clock → ∀ (limits : Limits Unit),
    (∀ name, 1 ≤ (limits.limitFor name).perMinute ∧ 1 ≤ (limits.limitFor name).concurrent) →
      ∀ (events : List (Event Unit)) (name : Unit), Fair clock (limits.limitFor name)
        (run clock limits events).reads ((run clock limits events).provider name) := by
  intro h
  have hmonotone : Monotone minuteLater := by
    intro m n hmn
    rw [minuteLater, minuteLater]
    split_ifs <;> first | omega | norm_num
  have hfair := h minuteLater hmonotone one (fun _ => ⟨le_rfl, le_rfl⟩)
    [⟨(), .acquire⟩, ⟨(), .acquire⟩, ⟨(), .release 0⟩, ⟨(), .acquire⟩] ()
  exact absurd hfair.inOrder (by decide +kernel)

end Ds4Studio.Research.RateLimiter
