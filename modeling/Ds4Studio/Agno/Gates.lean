import Mathlib.Data.List.Basic

/-!
The gates of the Agno calls. A call that finds no free place waits in a queue; a place that
is given back goes to the head of the queue.
-/

namespace Ds4Studio.Agno

/-- The two kinds of calls, each with a gate of its own. -/
inductive Kind where
  | model | tool
deriving DecidableEq

/-- A gate; the calls in the queue by their numbers. -/
structure Gate where
  maxInflight : ℕ
  maxQueued : ℕ
  inflight : ℕ
  queue : List ℕ

def Gate.new (maxInflight maxQueued : ℕ) : Gate := ⟨maxInflight, maxQueued, 0, []⟩

inductive Acquired where
  | leased
  | queued
  | rejected (code : String)

/-- `AgnoToolGate.acquire` up to where it waits. The signal is looked at in the queue only. -/
def toolAcquire (aborted : Bool) (i : ℕ) (g : Gate) : Gate × Acquired :=
  if g.inflight < g.maxInflight then ({ g with inflight := g.inflight + 1 }, .leased)
  else if g.maxQueued ≤ g.queue.length then (g, .rejected "AGNO_TOOL_QUEUE_FULL")
  else if aborted then (g, .rejected "AGNO_TOOL_CANCELLED")
  else ({ g with queue := g.queue ++ [i] }, .queued)

/-- `AgnoModelGate.acquire` up to where it waits. -/
def modelAcquire (aborted : Bool) (i : ℕ) (g : Gate) : Gate × Acquired :=
  if g.inflight < g.maxInflight then ({ g with inflight := 1 }, .leased)
  else if g.maxQueued ≤ g.queue.length then (g, .rejected "AGNO_MODEL_QUEUE_FULL")
  else if aborted then (g, .rejected "AGNO_MODEL_CANCELLED")
  else ({ g with queue := g.queue ++ [i] }, .queued)

def Gate.acquire : Kind → Bool → ℕ → Gate → Gate × Acquired
  | .tool => toolAcquire
  | .model => modelAcquire

/-- `AgnoToolGate.#drainQueue`: the places left over, and the calls that get one. -/
def drainQueue (maxInflight : ℕ) : ℕ → List ℕ → ℕ × List ℕ × List ℕ
  | inflight, [] => (inflight, [], [])
  | inflight, i :: queue =>
      if inflight < maxInflight then
        let (inflight, leased, queue) := drainQueue maxInflight (inflight + 1) queue
        (inflight, i :: leased, queue)
      else (inflight, [], i :: queue)

/-- The release of a lease; the calls that get one with it. -/
def toolRelease (g : Gate) : Gate × List ℕ :=
  let (inflight, leased, queue) := drainQueue g.maxInflight (g.inflight - 1) g.queue
  ({ g with inflight := inflight, queue := queue }, leased)

def modelRelease (g : Gate) : Gate × List ℕ :=
  match g.queue with
  | [] => ({ g with inflight := 0 }, [])
  | i :: queue => ({ g with inflight := 1, queue := queue }, [i])

def Gate.release : Kind → Gate → Gate × List ℕ
  | .tool => toolRelease
  | .model => modelRelease

/-- The calls leave the queue without a lease. -/
def Gate.remove (gone : ℕ → Bool) (g : Gate) : Gate :=
  { g with queue := g.queue.filter fun i => !gone i }

/-! ### The queue -/

theorem acquire_queue (kind : Kind) (aborted : Bool) (i : ℕ) (g : Gate) :
    ((g.acquire kind aborted i).2 = .queued ∧ aborted = false ∧
        (g.acquire kind aborted i).1.queue = g.queue ++ [i]) ∨
      ((g.acquire kind aborted i).2 ≠ .queued ∧
        (g.acquire kind aborted i).1.queue = g.queue) := by
  cases kind
  all_goals
    simp only [Gate.acquire, modelAcquire, toolAcquire]
    split
    · exact .inr ⟨by simp, rfl⟩
    · split
      · exact .inr ⟨by simp, rfl⟩
      · cases aborted with
        | true => exact .inr ⟨by simp, rfl⟩
        | false => exact .inl ⟨rfl, rfl, rfl⟩

theorem drainQueue_append (maxInflight inflight : ℕ) (queue : List ℕ) :
    (drainQueue maxInflight inflight queue).2.1 ++ (drainQueue maxInflight inflight queue).2.2 =
      queue := by
  induction queue generalizing inflight with
  | nil => rfl
  | cons i queue ih =>
    rw [drainQueue]
    split
    · simp only [List.cons_append, ih]
    · rfl

theorem release_append (kind : Kind) (g : Gate) :
    (g.release kind).2 ++ (g.release kind).1.queue = g.queue := by
  cases kind with
  | model =>
    simp only [Gate.release, modelRelease]
    cases g.queue <;> rfl
  | tool => exact drainQueue_append g.maxInflight (g.inflight - 1) g.queue

end Ds4Studio.Agno
