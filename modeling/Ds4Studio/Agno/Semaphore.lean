import Mathlib.Data.List.Perm.Basic
import Ds4Studio.Agno.Gates

/-!
The two gates of the Agno calls with all that happens to them: acquires with and without a
signal, aborts, releases, wait timeouts and the closing, in any order. A call is named by
its place among the acquires, a lease and a timer by the call they belong to.
-/

namespace Ds4Studio.Agno.Semaphore

open List

/-- How the promise of an `acquire` settles. -/
inductive Settled where
  | lease
  | error (code : String)
  | undefined
deriving DecidableEq

structure Totals where
  acquired : ℕ
  rejected : ℕ
  timedOut : ℕ
  cancelled : ℕ

/-- A gate, and around it the timers that run, the signals that have aborted, the abort
listeners with their signals, the leases that are out, and what became of the acquires. -/
structure State where
  maxInflight : ℕ
  maxQueued : ℕ
  inflight : ℕ
  queue : List ℕ
  closed : Bool
  totals : Totals
  timers : List ℕ
  aborted : List ℕ
  listeners : List (ℕ × ℕ)
  leases : List ℕ
  calls : ℕ
  /-- the calls whose signal had aborted before -/
  late : List ℕ
  settled : List (ℕ × Settled)

inductive Event where
  | acquire (signal : Option ℕ)
  | abort (signal : ℕ)
  | release (lease : ℕ)
  | timeout (call : ℕ)
  | close

namespace State

def new (maxInflight maxQueued : ℕ) : State :=
  ⟨maxInflight, maxQueued, 0, [], false, ⟨0, 0, 0, 0⟩, [], [], [], [], 0, [], []⟩

def settle (i : ℕ) (o : Settled) (s : State) : State :=
  { s with settled := s.settled ++ [(i, o)] }

/-- `#createLease`, handed to the call. -/
def createLease (i : ℕ) (s : State) : State :=
  { s with
    totals := { s.totals with acquired := s.totals.acquired + 1 }
    leases := s.leases ++ [i]
    settled := s.settled ++ [(i, .lease)] }

def reject (i : ℕ) (code : String) (s : State) : State :=
  { s with
    totals := { s.totals with rejected := s.totals.rejected + 1 }
    settled := s.settled ++ [(i, .error code)] }

/-- The call leaves the queue and its timer is cleared. -/
def leave (i : ℕ) (o : Settled) (s : State) : State :=
  { s with
    queue := s.queue.erase i
    timers := s.timers.erase i
    settled := s.settled ++ [(i, o)] }

def countTimedOut (s : State) : State :=
  { s with totals := { s.totals with timedOut := s.totals.timedOut + 1 } }

def countCancelled (s : State) : State :=
  { s with totals := { s.totals with cancelled := s.totals.cancelled + 1 } }

/-- The entry of the call with its timer; with a signal, its abort listener too. -/
def enqueue (i : ℕ) (signal : Option ℕ) (s : State) : State :=
  { s with
    queue := s.queue ++ [i]
    timers := s.timers ++ [i]
    listeners := s.listeners ++ (signal.map fun g => (g, i)).toList }

def isAborted (s : State) (signal : Option ℕ) : Bool := signal.any fun g => decide (g ∈ s.aborted)

/-- A call arrives at the gate. -/
def arrive (signal : Option ℕ) (s : State) : State :=
  { s with
    calls := s.calls + 1
    late := if s.isAborted signal then s.late ++ [s.calls] else s.late }

end State

open State

def cancelledCode : Kind → String
  | .tool => "AGNO_TOOL_CANCELLED"
  | .model => "AGNO_MODEL_CANCELLED"

def timeoutCode : Kind → String
  | .tool => "AGNO_TOOL_WAIT_TIMEOUT"
  | .model => "AGNO_MODEL_WAIT_TIMEOUT"

def closedCode : Kind → String
  | .tool => "AGNO_TOOL_CANCELLED"
  | .model => "AGNO_MODEL_GATE_CLOSED"

/-- `#removeAndCancel` and `#removeAndReject`. -/
def removeAndReject (kind : Kind) (s : State) (i : ℕ) : State :=
  if i ∈ s.queue then (s.leave i (.error (cancelledCode kind))).countCancelled else s

/-- `AgnoToolGate.acquire`. -/
def toolAcquire (i : ℕ) (signal : Option ℕ) (s : State) : State :=
  if s.closed then s.reject i "AGNO_TOOL_CANCELLED"
  else if s.inflight < s.maxInflight then
    { s with inflight := s.inflight + 1 }.createLease i
  else if s.maxQueued ≤ s.queue.length then s.reject i "AGNO_TOOL_QUEUE_FULL"
  else if s.isAborted signal then removeAndReject .tool (s.enqueue i none) i
  else s.enqueue i signal

/-- `AgnoModelGate.acquire`. Of a signal that has aborted it returns what
`#removeAndReject` returns; the promise that this rejects has no reader, and the timer
goes on. -/
def modelAcquire (i : ℕ) (signal : Option ℕ) (s : State) : State :=
  if s.closed then s.reject i "AGNO_MODEL_GATE_CLOSED"
  else if s.inflight < s.maxInflight then { s with inflight := 1 }.createLease i
  else if s.maxQueued ≤ s.queue.length then s.reject i "AGNO_MODEL_QUEUE_FULL"
  else if s.isAborted signal then
    { s with timers := s.timers ++ [i] }.countCancelled.settle i .undefined
  else s.enqueue i signal

/-- `AgnoToolGate.#drainQueue` from a queue on. -/
def toolDrain : List ℕ → State → State
  | [], s => { s with queue := [] }
  | i :: queue, s =>
      if s.inflight < s.maxInflight then
        toolDrain queue
          ({ s with inflight := s.inflight + 1, timers := s.timers.erase i }.createLease i)
      else { s with queue := i :: queue }

/-- The release of a lease of the tool gate that is still out. -/
def toolRelease (s : State) : State :=
  if s.closed then { s with inflight := s.inflight - 1 }
  else toolDrain s.queue { s with inflight := s.inflight - 1 }

/-- `AgnoModelGate.#drainQueue`: one call, whatever the places. -/
def modelDrain (s : State) : State :=
  match s.queue with
  | [] => s
  | i :: queue =>
      { s with inflight := 1, queue := queue, timers := s.timers.erase i }.createLease i

def modelRelease (s : State) : State :=
  if s.closed then { s with inflight := 0 } else modelDrain { s with inflight := 0 }

def acquire : Kind → ℕ → Option ℕ → State → State
  | .tool => toolAcquire
  | .model => modelAcquire

def releaseLease : Kind → State → State
  | .tool => toolRelease
  | .model => modelRelease

/-- The wait timeout of a call. -/
def waitTimeout (kind : Kind) (i : ℕ) (s : State) : State :=
  if i ∈ s.queue then (s.leave i (.error (timeoutCode kind))).countTimedOut
  else { s with timers := s.timers.erase i }

/-- `cancelAll` and `close`; the tool gate alone counts the calls it cancels. -/
def close (kind : Kind) (s : State) : State :=
  { s with
    closed := true
    queue := []
    timers := s.timers.filter fun i => i ∉ s.queue
    totals := match kind with
      | .tool => { s.totals with cancelled := s.totals.cancelled + s.queue.length }
      | .model => s.totals
    settled := s.settled ++ s.queue.map fun i => (i, .error (closedCode kind)) }

/-- The listeners of the signal that aborts, called in their order. -/
def abortSignal (kind : Kind) (g : ℕ) (s : State) : State :=
  ((s.listeners.filter fun l => l.1 = g).map Prod.snd).foldl (removeAndReject kind)
    { s with aborted := g :: s.aborted, listeners := s.listeners.filter fun l => l.1 ≠ g }

def step (kind : Kind) (s : State) : Event → State
  | .acquire signal => acquire kind s.calls signal (s.arrive signal)
  | .abort g => if g ∈ s.aborted then s else abortSignal kind g s
  | .release i =>
      if i ∈ s.leases then releaseLease kind { s with leases := s.leases.erase i } else s
  | .timeout i => if i ∈ s.timers then waitTimeout kind i s else s
  | .close => close kind s

def run (kind : Kind) (s : State) (events : List Event) : State := events.foldl (step kind) s

/-! ### What a fair gate is -/

/-- Whoever came before a call with a lease had settled when it got it. -/
def InOrder (settled : List (ℕ × Settled)) : Prop :=
  ∀ front i back, settled = front ++ (i, .lease) :: back → ∀ j < i, j ∈ front.map Prod.fst

structure Fair (kind : Kind) (maxInflight maxQueued : ℕ) (s : State) : Prop where
  bounded : s.leases.length ≤ maxInflight
  counted : s.inflight = s.leases.length
  leased : s.leases.Nodup ∧ ∀ i ∈ s.leases, (i, .lease) ∈ s.settled
  waiting : s.queue.length ≤ maxQueued
  idle : s.closed = false → s.inflight < maxInflight → s.queue = []
  inOrder : InOrder s.settled
  /-- a call waits, or it has settled, and that once -/
  once : (s.queue ++ s.settled.map Prod.fst).Perm (range s.calls)
  /-- the timer of a call settles it if nothing else has -/
  settles : ∀ i < s.calls, ∃ o, (i, o) ∈ (step kind s (.timeout i)).settled
  coded : ∀ i, (i, .undefined) ∉ s.settled
  never : ∀ i ∈ s.late, (i, .lease) ∉ s.settled

/-- When an event leaves the gate fair: an acquire at an open gate must not come with an
aborted signal, except where the gate looks at it or turns the call away, and the model
gate must not have a lease out and a place free. -/
def Meets (kind : Kind) (s : State) : Event → Prop
  | .acquire signal =>
      s.closed = false → match kind with
        | .tool => s.inflight < s.maxInflight → s.isAborted signal = false
        | .model =>
            (s.inflight < s.maxInflight → s.inflight = 0) ∧
              (s.inflight < s.maxInflight ∨ s.queue.length < s.maxQueued →
                s.isAborted signal = false)
  | _ => True

/-! ### The order of the leases -/

theorem inOrder_append {l m : List (ℕ × Settled)} (hl : InOrder l)
    (hm : ∀ p ∈ m, p.2 ≠ .lease) : InOrder (l ++ m) := by
  intro front i back h j hj
  rcases append_eq_append_iff.mp h with ⟨mid, hfront, hmid⟩ | ⟨mid, hl', hmid⟩
  · have hmem : (i, Settled.lease) ∈ m := by rw [hmid]; simp
    exact absurd rfl (hm _ hmem)
  · cases mid with
    | nil =>
      have hmem : (i, Settled.lease) ∈ m := by rw [← nil_append m, ← hmid]; simp
      exact absurd rfl (hm _ hmem)
    | cons p mid =>
      obtain ⟨rfl, -⟩ := cons.inj hmid
      exact hl front i mid hl' j hj

theorem inOrder_lease {l : List (ℕ × Settled)} {i : ℕ} (hl : InOrder l)
    (hi : ∀ j < i, j ∈ l.map Prod.fst) : InOrder (l ++ [(i, .lease)]) := by
  intro front k back h j hj
  rcases eq_nil_or_concat back with rfl | ⟨back, p, rfl⟩
  · obtain ⟨rfl, hlast⟩ := append_inj' h rfl
    obtain rfl : i = k := congrArg Prod.fst (cons.inj hlast).1
    exact hi j hj
  · have h' : l ++ [(i, .lease)] = (front ++ (k, .lease) :: back) ++ [p] := by simpa using h
    exact hl front k back (append_inj' h' rfl).1 j hj

/-! ### What every operation keeps -/

/-- The bookkeeping between two lines of the gate; the calls in `transit` are neither in
the queue nor settled. -/
structure Kept (transit : List ℕ) (s : State) : Prop where
  bounded : s.leases.length ≤ s.maxInflight
  leased : s.leases.Nodup ∧ ∀ i ∈ s.leases, (i, .lease) ∈ s.settled
  waiting : s.queue.length ≤ s.maxQueued
  sorted : s.queue.Pairwise (· < ·)
  inOrder : InOrder s.settled
  once : (transit ++ s.queue ++ s.settled.map Prod.fst).Perm (range s.calls)
  timed : ∀ i ∈ s.queue, i ∈ s.timers
  coded : ∀ i, (i, .undefined) ∉ s.settled
  never : ∀ i ∈ s.late, (i, .lease) ∉ s.settled
  gone : ∀ i ∈ s.late, i ∉ s.queue
  known : ∀ i ∈ s.late, i < s.calls

variable {kind : Kind} {s : State} {transit : List ℕ} {i : ℕ}

theorem Kept.nodup (h : Kept transit s) : (transit ++ s.queue ++ s.settled.map Prod.fst).Nodup :=
  h.once.nodup_iff.mpr nodup_range

theorem Kept.not_mem_queue (h : Kept [i] s) : i ∉ s.queue := by
  intro hi
  have hnodup := h.nodup
  rw [append_assoc, singleton_append, nodup_cons] at hnodup
  exact hnodup.1 (mem_append_left _ hi)

theorem Kept.not_settled (h : Kept [i] s) (o : Settled) : (i, o) ∉ s.settled := by
  intro hi
  have hnodup := h.nodup
  rw [append_assoc, singleton_append, nodup_cons] at hnodup
  exact hnodup.1 (mem_append_right _ (mem_map_of_mem hi))

section

variable (h : Kept transit s)

include h

theorem Kept.lt_calls (hi : i ∈ transit ++ s.queue) : i < s.calls :=
  mem_range.mp (h.once.mem_iff.mp (mem_append_left _ hi))

theorem Kept.mem_of_lt (hi : i < s.calls) :
    i ∈ transit ∨ i ∈ s.queue ∨ i ∈ s.settled.map Prod.fst := by
  have hmem := h.once.mem_iff.mpr (mem_range.mpr hi)
  rw [mem_append, mem_append, or_assoc] at hmem
  exact hmem

theorem Kept.with_counters (inflight : ℕ) (totals : Totals) :
    Kept transit { s with inflight := inflight, totals := totals } :=
  ⟨h.bounded, h.leased, h.waiting, h.sorted, h.inOrder, h.once, h.timed, h.coded, h.never, h.gone,
    h.known⟩

theorem Kept.with_signals (aborted : List ℕ) (listeners : List (ℕ × ℕ)) :
    Kept transit { s with aborted := aborted, listeners := listeners } :=
  ⟨h.bounded, h.leased, h.waiting, h.sorted, h.inOrder, h.once, h.timed, h.coded, h.never, h.gone,
    h.known⟩

theorem Kept.with_timers {queue timers : List ℕ} (hqueue : queue = s.queue)
    (ht : ∀ j ∈ s.queue, j ∈ timers) :
    Kept transit { s with queue := queue, timers := timers } := by
  subst hqueue
  exact { h with timed := ht }

theorem Kept.clear_timer (hi : i ∉ s.queue) :
    Kept transit { s with timers := s.timers.erase i } := by
  apply h.with_timers rfl
  intro j hj
  have hne : j ≠ i := fun hji => hi (hji ▸ hj)
  exact (mem_erase_of_ne hne).mpr (h.timed j hj)

end

variable {signal : Option ℕ}

theorem mem_late_arrive (hi : i ∈ (s.arrive signal).late) : i ∈ s.late ∨ i = s.calls := by
  simp only [State.arrive] at hi
  split at hi
  · simpa using hi
  · exact .inl hi

theorem late_arrive (h : s.isAborted signal = false) : (s.arrive signal).late = s.late := by
  simp [State.arrive, h]

theorem Kept.arrive (h : Kept [] s) (signal : Option ℕ) : Kept [s.calls] (s.arrive signal) where
  __ := h
  once := by
    have hrange : (s.arrive signal).calls = s.calls + 1 := rfl
    rw [hrange, range_succ]
    exact (perm_append_singleton ..).symm.trans (h.once.append_right [s.calls])
  never := by
    intro i hi hlease
    rcases mem_late_arrive hi with hlate | rfl
    · exact h.never i hlate hlease
    · have hlt := mem_range.mp (h.once.mem_iff.mp
        (mem_append_right _ (mem_map_of_mem hlease)))
      exact Nat.lt_irrefl _ hlt
  gone := by
    intro i hi hqueue
    rcases mem_late_arrive hi with hlate | rfl
    · exact h.gone i hlate hqueue
    · exact Nat.lt_irrefl _ (h.lt_calls hqueue)
  known := by
    intro i hi
    rcases mem_late_arrive hi with hlate | rfl
    · exact Nat.lt_succ_of_lt (h.known i hlate)
    · exact Nat.lt_succ_self _

theorem perm_settle (s : State) (i : ℕ) (x : Settled) :
    ([] ++ s.queue ++ (s.settled ++ [(i, x)]).map Prod.fst).Perm
      ([i] ++ s.queue ++ s.settled.map Prod.fst) := by
  rw [map_append, ← append_assoc]
  exact perm_append_comm

theorem Kept.error (h : Kept [i] s) (code : String) :
    Kept [] (s.settle i (.error code)) where
  __ := h
  leased := ⟨h.leased.1, fun j hj => mem_append_left _ (h.leased.2 j hj)⟩
  inOrder := inOrder_append h.inOrder (by simp)
  once := (perm_settle s i (.error code)).trans h.once
  coded := by
    intro j hj
    rcases mem_append.mp hj with hj | hj
    · exact h.coded j hj
    · simp at hj
  never := by
    intro j hlate hj
    rcases mem_append.mp hj with hj | hj
    · exact h.never j hlate hj
    · simp at hj

theorem Kept.reject (h : Kept [i] s) (code : String) : Kept [] (s.reject i code) :=
  (h.error code).with_counters _ _

theorem Kept.lease (h : Kept [i] s) (hroom : s.leases.length < s.maxInflight)
    (hfirst : ∀ j ∈ s.queue, i < j) (hlate : i ∉ s.late) : Kept [] (s.createLease i) where
  __ := h
  bounded := by
    have hlength : (s.createLease i).leases.length = s.leases.length + 1 := length_append
    rw [hlength]
    exact hroom
  leased := by
    constructor
    · have hnew : i ∉ s.leases := fun hi => h.not_settled .lease (h.leased.2 i hi)
      exact (perm_append_singleton i s.leases).nodup_iff.mpr (nodup_cons.mpr ⟨hnew, h.leased.1⟩)
    · intro j hj
      rcases mem_append.mp hj with hj | hj
      · exact mem_append_left _ (h.leased.2 j hj)
      · rw [mem_singleton.mp hj]
        exact mem_append_right _ (mem_singleton.mpr rfl)
  inOrder := by
    apply inOrder_lease h.inOrder
    intro j hj
    have hi : i < s.calls := h.lt_calls (by simp)
    rcases h.mem_of_lt (Nat.lt_trans hj hi) with htransit | hqueue | hsettled
    · rw [mem_singleton.mp htransit] at hj
      exact absurd hj (Nat.lt_irrefl i)
    · exact absurd (hfirst j hqueue) (Nat.lt_asymm hj)
    · exact hsettled
  once := (perm_settle s i .lease).trans h.once
  coded := by
    intro j hj
    rcases mem_append.mp hj with hj | hj
    · exact h.coded j hj
    · simp at hj
  never := by
    intro j hj hlease
    rcases mem_append.mp hlease with hlease | hlease
    · exact h.never j hj hlease
    · obtain rfl : j = i := by simpa using hlease
      exact hlate hj

theorem Kept.enqueue (h : Kept [i] s) (hroom : s.queue.length < s.maxQueued)
    (hlast : ∀ j ∈ s.queue, j < i) (hlate : i ∉ s.late) (signal : Option ℕ) :
    Kept [] (s.enqueue i signal) where
  __ := h
  waiting := by
    have hlength : (s.enqueue i signal).queue.length = s.queue.length + 1 := length_append
    rw [hlength]
    exact hroom
  sorted := by
    apply pairwise_append.mpr
    exact ⟨h.sorted, pairwise_singleton _ i, by simpa using hlast⟩
  once := by
    have hperm : ([] ++ (s.queue ++ [i]) ++ s.settled.map Prod.fst).Perm
        ([i] ++ s.queue ++ s.settled.map Prod.fst) :=
      (perm_append_singleton i s.queue).append_right _
    exact hperm.trans h.once
  timed := by
    intro j hj
    rcases mem_append.mp hj with hj | hj
    · exact mem_append_left _ (h.timed j hj)
    · exact mem_append_right _ hj
  gone := by
    intro j hj hqueue
    rcases mem_append.mp hqueue with hqueue | hqueue
    · exact h.gone j hj hqueue
    · rw [mem_singleton.mp hqueue] at hj
      exact hlate hj

theorem Kept.dequeue (h : Kept [] s) (hi : i ∈ s.queue) :
    Kept [i] { s with queue := s.queue.erase i } where
  __ := h
  waiting := Nat.le_trans (length_erase_le ..) h.waiting
  sorted := h.sorted.sublist erase_sublist
  once := by
    have hperm := ((perm_cons_erase hi).symm).append_right (s.settled.map Prod.fst)
    exact hperm.trans h.once
  timed := fun j hj => h.timed j (mem_of_mem_erase hj)
  gone := fun j hj hqueue => h.gone j hj (mem_of_mem_erase hqueue)

theorem Kept.leave (h : Kept [] s) (hi : i ∈ s.queue) (code : String) :
    Kept [] (s.leave i (.error code)) :=
  have htaken := h.dequeue hi
  (htaken.clear_timer htaken.not_mem_queue).error code

theorem Kept.turned_away (h : Kept [i] s) (code : String) :
    Kept [] ((s.enqueue i none).leave i (.error code)) := by
  have hqueue : (s.queue ++ [i]).erase i = s.queue := by
    rw [erase_append_right _ h.not_mem_queue, erase_cons_head, append_nil]
  have htimers : ∀ j ∈ s.queue, j ∈ (s.timers ++ [i]).erase i := by
    intro j hj
    have hne : j ≠ i := fun hji => h.not_mem_queue (hji ▸ hj)
    exact (mem_erase_of_ne hne).mpr (mem_append_left _ (h.timed j hj))
  exact ((h.error code).with_signals s.aborted (s.listeners ++ [])).with_timers hqueue htimers

theorem Kept.drop_lease (h : Kept transit s) (i : ℕ) :
    Kept transit { s with leases := s.leases.erase i } where
  __ := h
  bounded := Nat.le_trans (length_erase_le ..) h.bounded
  leased := ⟨h.leased.1.erase i, fun j hj => h.leased.2 j (mem_of_mem_erase hj)⟩

theorem Kept.close (h : Kept [] s) (kind : Kind) : Kept [] (close kind s) where
  bounded := h.bounded
  leased := ⟨h.leased.1, fun j hj => mem_append_left _ (h.leased.2 j hj)⟩
  waiting := Nat.zero_le _
  sorted := List.Pairwise.nil
  inOrder := inOrder_append h.inOrder (by simp)
  once := by
    have hmap : (s.settled ++ s.queue.map fun i => (i, Settled.error (closedCode kind))).map
        Prod.fst = s.settled.map Prod.fst ++ s.queue := by
      simp [Function.comp_def]
    have hperm : (s.settled.map Prod.fst ++ s.queue).Perm (range s.calls) :=
      perm_append_comm.trans h.once
    rw [← hmap] at hperm
    exact hperm
  timed := nofun
  coded := by
    intro j hj
    rcases mem_append.mp hj with hj | hj
    · exact h.coded j hj
    · simp at hj
  never := by
    intro j hlate hj
    rcases mem_append.mp hj with hj | hj
    · exact h.never j hlate hj
    · simp at hj
  gone := fun _ _ => not_mem_nil
  known := h.known

/-! ### The gates in their own runs -/

structure Inv (kind : Kind) (s : State) : Prop where
  kept : Kept [] s
  counted : s.inflight = s.leases.length
  idle : s.closed = false → s.inflight < s.maxInflight → s.queue = []
  single : kind = .model → s.inflight ≤ 1

theorem Inv.new (kind : Kind) (maxInflight maxQueued : ℕ) :
    Inv kind (State.new maxInflight maxQueued) where
  kept :=
    { bounded := Nat.zero_le _
      leased := ⟨nodup_nil, nofun⟩
      waiting := Nat.zero_le _
      sorted := List.Pairwise.nil
      inOrder := fun front i back h => absurd h (by simp [State.new])
      once := List.Perm.refl _
      timed := nofun
      coded := nofun
      never := nofun
      gone := nofun
      known := nofun }
  counted := rfl
  idle := fun _ _ => rfl
  single := fun _ => Nat.zero_le _

theorem Inv.reject (h : Inv kind s) (signal : Option ℕ) (code : String) :
    Inv kind ((s.arrive signal).reject s.calls code) :=
  ⟨(h.kept.arrive signal).reject code, h.counted, h.idle, h.single⟩

theorem Inv.lease (h : Inv kind s) (hopen : s.closed = false) (hroom : s.inflight < s.maxInflight)
    (halive : s.isAborted signal = false) (hsingle : kind = .model → s.inflight = 0) :
    Inv kind ({ s.arrive signal with inflight := s.inflight + 1 }.createLease s.calls) := by
  have hqueue := h.idle hopen hroom
  constructor
  · apply ((h.kept.arrive signal).with_counters (s.inflight + 1) s.totals).lease
    · exact h.counted ▸ hroom
    · intro j hj
      rw [show (s.arrive signal).queue = [] from hqueue] at hj
      exact absurd hj not_mem_nil
    · intro hlate
      rw [late_arrive halive] at hlate
      exact Nat.lt_irrefl _ (h.kept.known _ hlate)
  · rw [State.createLease, length_append]
    exact congrArg (· + 1) h.counted
  · exact fun _ _ => hqueue
  · intro hmodel
    exact Nat.le_of_eq (congrArg (· + 1) (hsingle hmodel))

theorem Inv.enqueue (h : Inv kind s) (hfull : s.maxInflight ≤ s.inflight)
    (hroom : s.queue.length < s.maxQueued) (halive : s.isAborted signal = false) :
    Inv kind ((s.arrive signal).enqueue s.calls signal) := by
  constructor
  · apply (h.kept.arrive signal).enqueue hroom
    · exact fun j hj => h.kept.lt_calls hj
    · intro hlate
      rw [late_arrive halive] at hlate
      exact Nat.lt_irrefl _ (h.kept.known _ hlate)
  · exact h.counted
  · exact fun _ hlt => absurd hfull (Nat.not_le_of_lt hlt)
  · exact h.single

theorem Inv.leave (h : Inv kind s) (hi : i ∈ s.queue) (code : String) :
    Inv kind (s.leave i (.error code)) := by
  constructor
  · exact h.kept.leave hi code
  · exact h.counted
  · intro hopen hlt
    have hqueue := h.idle hopen hlt
    rw [hqueue] at hi
    exact absurd hi not_mem_nil
  · exact h.single

theorem Inv.with_counters (h : Inv kind s) (totals : Totals) :
    Inv kind { s with totals := totals } :=
  ⟨h.kept.with_counters s.inflight totals, h.counted, h.idle, h.single⟩

theorem Inv.removeAndReject (h : Inv kind s) (i : ℕ) : Inv kind (removeAndReject kind s i) := by
  rw [Semaphore.removeAndReject]
  split_ifs with hi
  · exact (h.leave hi _).with_counters _
  · exact h

theorem Inv.toolAcquire (h : Inv .tool s) (hmeets : Meets .tool s (.acquire signal)) :
    Inv .tool (toolAcquire s.calls signal (s.arrive signal)) := by
  rw [Semaphore.toolAcquire]
  split_ifs with hclosed hfree hfull haborted
  · exact h.reject signal _
  · have hopen : s.closed = false := Bool.eq_false_iff.mpr hclosed
    exact h.lease hopen hfree (hmeets hopen hfree) nofun
  · exact h.reject signal _
  · have hbusy : s.maxInflight ≤ s.inflight := Nat.le_of_not_lt hfree
    have hmem : s.calls ∈ ((s.arrive signal).enqueue s.calls none).queue :=
      mem_append_right _ (mem_singleton.mpr rfl)
    rw [Semaphore.removeAndReject, if_pos hmem]
    exact ⟨((h.kept.arrive signal).turned_away _).with_counters _ _, h.counted,
      fun _ hlt => absurd hbusy (Nat.not_le_of_lt hlt), nofun⟩
  · exact h.enqueue (Nat.le_of_not_lt hfree) (Nat.lt_of_not_le hfull)
      (Bool.eq_false_iff.mpr haborted)

theorem Inv.modelAcquire (h : Inv .model s) (hmeets : Meets .model s (.acquire signal)) :
    Inv .model (modelAcquire s.calls signal (s.arrive signal)) := by
  rw [Semaphore.modelAcquire]
  split_ifs with hclosed hfree hfull haborted
  · exact h.reject signal _
  · have hopen : s.closed = false := Bool.eq_false_iff.mpr hclosed
    obtain ⟨hidle, halive⟩ := hmeets hopen
    have hzero : s.inflight = 0 := hidle hfree
    have hlease := h.lease hopen hfree (halive (.inl hfree)) fun _ => hzero
    rw [hzero] at hlease
    exact hlease
  · exact h.reject signal _
  · have hopen : s.closed = false := Bool.eq_false_iff.mpr hclosed
    have halive := (hmeets hopen).2 (.inr (Nat.lt_of_not_le hfull))
    exact absurd halive (Bool.eq_false_iff.not.mpr (not_not.mpr haborted))
  · exact h.enqueue (Nat.le_of_not_lt hfree) (Nat.lt_of_not_le hfull)
      (Bool.eq_false_iff.mpr haborted)

theorem Kept.serve {queue : List ℕ} (h : Kept [] { s with queue := i :: queue })
    (hroom : s.leases.length < s.maxInflight) (inflight : ℕ) :
    Kept [] ({ s with
      inflight := inflight, queue := queue, timers := s.timers.erase i }.createLease i) := by
  have htaken := h.dequeue (mem_cons_self ..)
  rw [show ({ s with queue := i :: queue } : State).queue.erase i = queue from
    erase_cons_head ..] at htaken
  have hkept := (htaken.clear_timer htaken.not_mem_queue).with_counters inflight s.totals
  apply hkept.lease hroom
  · exact (pairwise_cons.mp h.sorted).1
  · exact fun hlate => h.gone i hlate (mem_cons_self ..)

theorem toolDrain_spec (queue : List ℕ) (s : State) (hkept : Kept [] { s with queue := queue })
    (hcounted : s.inflight = s.leases.length) :
    Kept [] (toolDrain queue s) ∧
      (toolDrain queue s).inflight = (toolDrain queue s).leases.length ∧
      ((toolDrain queue s).inflight < (toolDrain queue s).maxInflight →
        (toolDrain queue s).queue = []) := by
  induction queue generalizing s with
  | nil => exact ⟨hkept, hcounted, fun _ => rfl⟩
  | cons i queue ih =>
    rw [toolDrain]
    split_ifs with hroom
    · apply ih
      · exact hkept.serve (hcounted ▸ hroom) (s.inflight + 1)
      · rw [State.createLease, length_append]
        exact congrArg (· + 1) hcounted
    · exact ⟨hkept, hcounted, fun hlt => absurd hlt hroom⟩

theorem length_erase_lease (hi : i ∈ s.leases) (h : s.inflight = s.leases.length) :
    s.inflight - 1 = (s.leases.erase i).length := by
  rw [h, length_erase_of_mem hi]

theorem Inv.toolRelease (h : Inv .tool s) (hi : i ∈ s.leases) :
    Inv .tool (toolRelease { s with leases := s.leases.erase i }) := by
  have hkept : Kept [] { s with leases := s.leases.erase i, inflight := s.inflight - 1 } :=
    (h.kept.drop_lease i).with_counters _ s.totals
  have hcounted := length_erase_lease hi h.counted
  rw [Semaphore.toolRelease]
  split_ifs with hclosed
  · exact ⟨hkept, hcounted, fun hopen => absurd (hopen.symm.trans hclosed) Bool.false_ne_true,
      nofun⟩
  · obtain ⟨hk, hc, hq⟩ := toolDrain_spec s.queue
      { s with leases := s.leases.erase i, inflight := s.inflight - 1 } hkept hcounted
    exact ⟨hk, hc, fun _ => hq, nofun⟩

theorem Inv.modelRelease (h : Inv .model s) (hi : i ∈ s.leases) :
    Inv .model (modelRelease { s with leases := s.leases.erase i }) := by
  have hone : s.leases.length ≤ 1 := h.counted ▸ h.single rfl
  have hnone : (s.leases.erase i).length = 0 := by
    rw [length_erase_of_mem hi]
    omega
  have hpos : 0 < s.maxInflight := Nat.lt_of_lt_of_le (length_pos_of_mem hi) h.kept.bounded
  have hkept : Kept [] { s with leases := s.leases.erase i, inflight := 0 } :=
    (h.kept.drop_lease i).with_counters 0 s.totals
  rw [Semaphore.modelRelease]
  split_ifs with hclosed
  · exact ⟨hkept, hnone.symm, fun hopen => absurd (hopen.symm.trans hclosed) Bool.false_ne_true,
      fun _ => Nat.zero_le _⟩
  · rw [modelDrain]
    split
    · rename_i hqueue
      exact ⟨hkept, hnone.symm, fun _ _ => hqueue, fun _ => Nat.zero_le _⟩
    · rename_i j queue hqueue
      have hopen : s.closed = false := Bool.eq_false_iff.mpr hclosed
      have hone' : s.maxInflight ≤ 1 := by
        by_contra hmany
        have hidle := h.idle hopen (Nat.lt_of_le_of_lt (h.single rfl) (Nat.lt_of_not_le hmany))
        rw [hidle] at hqueue
        exact absurd hqueue (cons_ne_nil j queue).symm
      have hserved : Kept [] ({ s with
          leases := s.leases.erase i, inflight := 1, queue := queue,
          timers := s.timers.erase j }.createLease j) := by
        have hkept' : Kept [] { s with
            leases := s.leases.erase i, inflight := 0, queue := j :: queue } := by
          rw [← hqueue]
          exact hkept
        exact hkept'.serve (s := { s with leases := s.leases.erase i, inflight := 0 })
          (hnone ▸ hpos) 1
      refine ⟨hserved, ?_, fun _ hlt => absurd hone' (Nat.not_le_of_lt hlt), fun _ => Nat.le_refl 1⟩
      rw [State.createLease, length_append]
      exact congrArg (· + 1) hnone.symm

theorem Inv.abort (h : Inv kind s) (g : ℕ) : Inv kind (abortSignal kind g s) := by
  rw [abortSignal]
  generalize (s.listeners.filter fun l => l.1 = g).map Prod.snd = calls
  have hstart : Inv kind
      { s with aborted := g :: s.aborted, listeners := s.listeners.filter fun l => l.1 ≠ g } :=
    ⟨h.kept.with_signals _ _, h.counted, h.idle, h.single⟩
  generalize ({ s with
    aborted := g :: s.aborted, listeners := s.listeners.filter fun l => l.1 ≠ g } : State) = t
    at hstart
  induction calls generalizing t with
  | nil => exact hstart
  | cons i calls ih => exact ih _ (hstart.removeAndReject i)

theorem Inv.waitTimeout (h : Inv kind s) (i : ℕ) : Inv kind (waitTimeout kind i s) := by
  rw [Semaphore.waitTimeout]
  split_ifs with hi
  · exact (h.leave hi _).with_counters _
  · exact ⟨h.kept.clear_timer hi, h.counted, h.idle, h.single⟩

theorem Inv.close (h : Inv kind s) : Inv kind (close kind s) :=
  ⟨h.kept.close kind, h.counted, fun _ _ => rfl, h.single⟩

theorem Inv.step (h : Inv kind s) (e : Event) (hmeets : Meets kind s e) :
    Inv kind (step kind s e) := by
  cases e with
  | acquire signal =>
    cases kind with
    | tool => exact h.toolAcquire hmeets
    | model => exact h.modelAcquire hmeets
  | abort g =>
    rw [Semaphore.step]
    split_ifs
    · exact h
    · exact h.abort g
  | release i =>
    rw [Semaphore.step]
    split_ifs with hi
    · cases kind with
      | tool => exact h.toolRelease hi
      | model => exact h.modelRelease hi
    · exact h
  | timeout i =>
    rw [Semaphore.step]
    split_ifs
    · exact h.waitTimeout i
    · exact h
  | close => exact h.close

theorem Kept.settles (h : Kept [] s) (kind : Kind) (hi : i < s.calls) :
    ∃ o, (i, o) ∈ (step kind s (.timeout i)).settled := by
  rcases h.mem_of_lt hi with htransit | hqueue | hsettled
  · exact absurd htransit not_mem_nil
  · refine ⟨.error (timeoutCode kind), ?_⟩
    rw [step, if_pos (h.timed i hqueue), waitTimeout, if_pos hqueue]
    exact mem_append_right _ (mem_singleton.mpr rfl)
  · obtain ⟨⟨j, o⟩, hmem, rfl⟩ := mem_map.mp hsettled
    refine ⟨o, ?_⟩
    rw [step, waitTimeout]
    split_ifs
    · exact mem_append_left _ hmem
    · exact hmem
    · exact hmem

theorem Inv.fair (h : Inv kind s) : Fair kind s.maxInflight s.maxQueued s where
  bounded := h.kept.bounded
  counted := h.counted
  leased := h.kept.leased
  waiting := h.kept.waiting
  idle := h.idle
  inOrder := h.kept.inOrder
  once := h.kept.once
  settles := fun _ hi => h.kept.settles kind hi
  coded := h.kept.coded
  never := h.kept.never

/-! ### Where the gates fail -/

theorem late_of_aborted (h : s.isAborted signal = true) : s.calls ∈ (s.arrive signal).late := by
  simp [State.arrive, h]

theorem mem_settled_lease (i : ℕ) (s : State) : (i, .lease) ∈ (s.createLease i).settled :=
  mem_append_right _ (mem_singleton.mpr rfl)

/-- An event that does not meet the condition takes the fairness with it. -/
theorem Inv.not_fair (h : Inv kind s) (e : Event) (hmeets : ¬Meets kind s e)
    (maxInflight maxQueued : ℕ) : ¬Fair kind maxInflight maxQueued (Semaphore.step kind s e) := by
  intro hfair
  apply hmeets
  cases e with
  | acquire signal =>
    intro hopen
    have hclosed : ¬(s.arrive signal).closed = true := Bool.eq_false_iff.mp hopen
    cases kind with
    | tool =>
      intro hfree
      by_contra halive
      have haborted : s.isAborted signal = true := Bool.not_eq_false _ ▸ halive
      have hstep : Semaphore.step .tool s (.acquire signal) =
          { s.arrive signal with inflight := s.inflight + 1 }.createLease s.calls := by
        rw [Semaphore.step, acquire, Semaphore.toolAcquire, if_neg hclosed]
        exact if_pos hfree
      rw [hstep] at hfair
      exact hfair.never _ (late_of_aborted haborted) (mem_settled_lease ..)
    | model =>
      have hlease (hfree : s.inflight < s.maxInflight) :
          Semaphore.step .model s (.acquire signal) =
            { s.arrive signal with inflight := 1 }.createLease s.calls := by
        rw [Semaphore.step, acquire, Semaphore.modelAcquire, if_neg hclosed]
        exact if_pos hfree
      constructor
      · intro hfree
        rw [hlease hfree] at hfair
        have hcounted : 1 = (s.leases ++ [s.calls]).length := hfair.counted
        rw [length_append, length_singleton, ← h.counted] at hcounted
        omega
      · intro hcase
        by_contra halive
        have haborted : s.isAborted signal = true := Bool.not_eq_false _ ▸ halive
        by_cases hfree : s.inflight < s.maxInflight
        · rw [hlease hfree] at hfair
          exact hfair.never _ (late_of_aborted haborted) (mem_settled_lease ..)
        · have hbusy : ¬(s.arrive signal).inflight < (s.arrive signal).maxInflight := hfree
          have hroom : ¬(s.arrive signal).maxQueued ≤ (s.arrive signal).queue.length :=
            Nat.not_le_of_lt (hcase.resolve_left hfree)
          have hlate : (s.arrive signal).isAborted signal = true := haborted
          have hsettled : (s.calls, .undefined) ∈
              (Semaphore.step .model s (.acquire signal)).settled := by
            rw [Semaphore.step, acquire, Semaphore.modelAcquire, if_neg hclosed, if_neg hbusy,
              if_neg hroom, if_pos hlate]
            exact mem_append_right _ (mem_singleton.mpr rfl)
          exact hfair.coded _ hsettled
  | abort => trivial
  | release => trivial
  | timeout => trivial
  | close => trivial

/-! ### Whole runs -/

def limits (s : State) : ℕ × ℕ := (s.maxInflight, s.maxQueued)

theorem limits_toolDrain (queue : List ℕ) (s : State) : limits (toolDrain queue s) = limits s := by
  induction queue generalizing s with
  | nil => rfl
  | cons i queue ih =>
    rw [toolDrain]
    split_ifs
    · exact ih _
    · rfl

theorem limits_removeAndReject (kind : Kind) (s : State) (i : ℕ) :
    limits (removeAndReject kind s i) = limits s := by
  rw [removeAndReject]
  split_ifs <;> rfl

theorem limits_abortSignal (kind : Kind) (g : ℕ) (s : State) :
    limits (abortSignal kind g s) = limits s := by
  rw [abortSignal]
  generalize (s.listeners.filter fun l => l.1 = g).map Prod.snd = calls
  have hstart : limits
      { s with aborted := g :: s.aborted, listeners := s.listeners.filter fun l => l.1 ≠ g } =
        limits s := rfl
  generalize ({ s with
    aborted := g :: s.aborted, listeners := s.listeners.filter fun l => l.1 ≠ g } : State) = t
    at hstart
  induction calls generalizing t with
  | nil => exact hstart
  | cons i calls ih => exact ih _ ((limits_removeAndReject kind t i).trans hstart)

theorem limits_acquire (kind : Kind) (i : ℕ) (signal : Option ℕ) (s : State) :
    limits (acquire kind i signal s) = limits s := by
  cases kind with
  | tool =>
    rw [acquire, toolAcquire]
    split_ifs
    · rfl
    · rfl
    · rfl
    · exact limits_removeAndReject .tool _ i
    · rfl
  | model =>
    rw [acquire, modelAcquire]
    split_ifs <;> rfl

theorem limits_releaseLease (kind : Kind) (s : State) :
    limits (releaseLease kind s) = limits s := by
  cases kind with
  | tool =>
    rw [releaseLease, toolRelease]
    split_ifs
    · rfl
    · exact limits_toolDrain s.queue _
  | model =>
    rw [releaseLease, modelRelease]
    split_ifs
    · rfl
    · rw [modelDrain]
      split <;> rfl

theorem limits_step (kind : Kind) (s : State) (e : Event) : limits (step kind s e) = limits s := by
  cases e with
  | acquire signal => exact limits_acquire kind s.calls signal (s.arrive signal)
  | abort g =>
    rw [step]
    split_ifs
    · rfl
    · exact limits_abortSignal kind g s
  | release i =>
    rw [step]
    split_ifs
    · exact limits_releaseLease kind _
    · rfl
  | timeout i =>
    rw [step, waitTimeout]
    split_ifs <;> rfl
  | close => rfl

theorem maxInflight_step (kind : Kind) (s : State) (e : Event) :
    (step kind s e).maxInflight = s.maxInflight :=
  congrArg Prod.fst (limits_step kind s e)

theorem maxQueued_step (kind : Kind) (s : State) (e : Event) :
    (step kind s e).maxQueued = s.maxQueued :=
  congrArg Prod.snd (limits_step kind s e)

/-- A gate is fair after every event of a run just if every event meets the condition on the
state in front of it. -/
theorem run_fair_iff (h : Inv kind s) (events : List Event) :
    (∀ front, front <+: events → Fair kind s.maxInflight s.maxQueued (run kind s front)) ↔
      ∀ front e, front ++ [e] <+: events → Meets kind (run kind s front) e := by
  induction events generalizing s with
  | nil =>
    constructor
    · intro _ front e hfront
      exact absurd (prefix_nil.mp hfront) (by simp)
    · intro _ front hfront
      rw [prefix_nil.mp hfront]
      exact h.fair
  | cons e events ih =>
    constructor
    · intro hfair
      have hmeets : Meets kind s e := by
        by_contra hmeets
        exact h.not_fair e hmeets _ _ (hfair [e] (by simp))
      have hrest := (ih (h.step e hmeets)).mp fun front hfront => by
        rw [maxInflight_step, maxQueued_step]
        exact hfair (e :: front) (cons_prefix_cons.mpr ⟨rfl, hfront⟩)
      intro front e' hfront
      cases front with
      | nil =>
        obtain ⟨rfl, -⟩ := cons_prefix_cons.mp hfront
        exact hmeets
      | cons d front =>
        obtain ⟨rfl, hback⟩ := cons_prefix_cons.mp hfront
        exact hrest front e' hback
    · intro hmeets
      have hfirst : Meets kind s e := hmeets [] e (by simp)
      have hrest := (ih (h.step e hfirst)).mpr fun front e' hfront =>
        hmeets (e :: front) e' (cons_prefix_cons.mpr ⟨rfl, hfront⟩)
      rw [maxInflight_step, maxQueued_step] at hrest
      intro front hfront
      cases front with
      | nil => exact h.fair
      | cons d front =>
        obtain ⟨rfl, hback⟩ := cons_prefix_cons.mp hfront
        exact hrest front hback

/-- Both gates, from their construction on, for every order of events. -/
theorem gates_fair_iff (kind : Kind) (maxInflight maxQueued : ℕ) (events : List Event) :
    (∀ front, front <+: events →
        Fair kind maxInflight maxQueued (run kind (.new maxInflight maxQueued) front)) ↔
      ∀ front e, front ++ [e] <+: events →
        Meets kind (run kind (.new maxInflight maxQueued) front) e :=
  run_fair_iff (Inv.new kind maxInflight maxQueued) events

/-- The model gate settles a call with an aborted signal without a code, and with two
places it counts two leases as one; the tool gate leases to an aborted signal. -/
theorem gates_unfair :
    ¬Fair .model 1 8 (run .model (.new 1 8) [.acquire none, .abort 0, .acquire (some 0)]) ∧
      ¬Fair .model 2 8 (run .model (.new 2 8) [.acquire none, .acquire none]) ∧
      ¬Fair .tool 1 8 (run .tool (.new 1 8) [.abort 0, .acquire (some 0)]) :=
  ⟨fun h => h.coded 1 (by decide), fun h => absurd h.counted (by decide),
    fun h => h.never 0 (by decide) (by decide)⟩

end Ds4Studio.Agno.Semaphore
