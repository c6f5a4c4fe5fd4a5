import Ds4Studio.Agno.Gates
import Ds4Studio.Agno.Guard
import Ds4Studio.Agno.ToolSession
import Ds4Studio.Wrapper.Switching

/-!
The model gateway and the tool bridge beside the wrapper. A call is checked by the guard, takes
its session, waits at its gate, and is forwarded or executed; each step is what runs between
two awaits. The wrapper takes its own steps in between.
-/

namespace Ds4Studio.Agno

open List Option Function

open Ds4Studio.Wrapper (Mode System)

/-! ### Calls -/

inductive Tool where
  | bash | read | write | edit | search | list | retrieveContextBlob | sage | webSearch | webRead
  | crawl | researchDiscover | chatHistorySearch | pageSnapshot | pageAction | pageTask

/-- `AGNO_TOOL_METADATA` -/
def Tool.maxTimeoutMs : Tool → ℕ
  | .bash => 120000
  | .read | .write | .edit | .search | .list => 30000
  | .retrieveContextBlob => 10000
  | .sage => 120000
  | .webSearch | .webRead => 60000
  | .crawl | .researchDiscover => 120000
  | .chatHistorySearch => 10000
  | .pageSnapshot => 30000
  | .pageAction | .pageTask => 120000

/-- A request whose own checks have passed. -/
inductive Request where
  | model
  | tool (name : Tool) (context : Context)

def Request.kind : Request → Kind
  | .model => .model
  | .tool _ _ => .tool

/-- The run a request belongs to, if it names one. -/
def Request.run : Request → Option ToolRun
  | .model => none
  | .tool _ context => context.run.toOption

def Request.maxTimeoutMs : Request → ℕ
  | .model => 0
  | .tool name _ => name.maxTimeoutMs

inductive Phase where
  | checking | switching | confirming | refused | admitted | queued | leased | running
  | ended (succeeded : Bool)
deriving DecidableEq

/-- A call; `gone` is whether its client is gone, `startedAt` when it took its session. -/
structure Call where
  request : Request
  phase : Phase
  gone : Bool
  record : Option ℕ
  startedAt : ℕ

def Call.new (request : Request) : Call := ⟨request, .checking, false, none, 0⟩

def Verdict.phase : Verdict → Phase
  | .refuse _ => .refused
  | .switchMode => .switching
  | .confirm => .confirming
  | .allow => .admitted

/-- Where an answer to a request for the status leaves a call. -/
def Call.afterStatus (c : Call) (answer : StatusAnswer) : Phase :=
  if c.phase = .confirming then (checkAfter answer).phase else (checkBefore answer).phase

/-! ### The bridge -/

/-- `acknowledged` are the runs whose cancellation is acknowledged, each with the number of
calls that had arrived by then. -/
structure Bridge where
  wrapper : System
  calls : ℕ → Option Call
  next : ℕ
  modelGate : Gate
  toolGate : Gate
  sessions : ToolSessions
  now : ℕ
  acknowledged : List (ToolRun × ℕ)

def Bridge.gate (s : Bridge) : Kind → Gate
  | .model => s.modelGate
  | .tool => s.toolGate

def Bridge.setGate (s : Bridge) (kind : Kind) (g : Gate) : Bridge :=
  match kind with
  | .model => { s with modelGate := g }
  | .tool => { s with toolGate := g }

def Bridge.mapCalls (s : Bridge) (f : ℕ → Call → Call) : Bridge :=
  { s with calls := fun j => (s.calls j).map (f j) }

def Bridge.setPhase (s : Bridge) (i : ℕ) (phase : Phase) : Bridge :=
  s.mapCalls fun j c => if j = i then { c with phase := phase } else c

/-- The signal of a call: its client, its session and its timeout. -/
def Bridge.aborted (s : Bridge) (c : Call) : Bool :=
  c.gone || c.record.any fun r =>
    s.sessions.aborted r || c.startedAt + c.request.maxTimeoutMs ≤ s.now

/-- The listeners in the queues: a call whose signal is aborted waits no more. -/
def Bridge.dropAborted (s : Bridge) : Bridge :=
  let gone := fun i => (s.calls i).any s.aborted
  { s with
    modelGate := s.modelGate.remove gone
    toolGate := s.toolGate.remove gone
    calls := fun i => (s.calls i).map fun c =>
      if c.phase = .queued ∧ s.aborted c = true then { c with phase := .ended false } else c }

def Acquired.phase : Acquired → Phase
  | .leased => .leased
  | .queued => .queued
  | .rejected _ => .ended false

/-- `acquire` on the gate of a call, with its signal as it is. -/
def Bridge.acquireGate (s : Bridge) (i : ℕ) (c : Call) : Bridge :=
  let (gate, acquired) := (s.gate c.request.kind).acquire c.request.kind (s.aborted c) i
  (s.setGate c.request.kind gate).setPhase i acquired.phase

/-- What follows the guard. A tool call takes its session first. -/
def Bridge.acquire (s : Bridge) (i : ℕ) (c : Call) : Bridge :=
  match c.request with
  | .model => s.acquireGate i c
  | .tool _ context =>
      match s.sessions.getOrCreate s.now context with
      | .error _ => s.setPhase i (.ended false)
      | .ok (sessions, r) =>
          let c := { c with record := some r, startedAt := s.now }
          { s with sessions := sessions, calls := update s.calls i (some c) }.acquireGate
            i c

/-- The end of a call that holds a lease. -/
def Bridge.release (s : Bridge) (i : ℕ) (c : Call) (succeeded : Bool) : Bridge :=
  let (gate, leased) := (s.gate c.request.kind).release c.request.kind
  (s.setGate c.request.kind gate).mapCalls fun j c =>
    if j = i then { c with phase := .ended succeeded }
    else if j ∈ leased then { c with phase := .leased }
    else c

inductive Action where
  | wrapper (action : Wrapper.Action)
  | arrive (request : Request)
  | status (i : ℕ) (answer : StatusAnswer)
  | switchAnswer (i : ℕ) (answer : SwitchAnswer)
  | acquire (i : ℕ)
  | waitTimeout (i : ℕ)
  | disconnect (i : ℕ)
  | start (i : ℕ)
  | retry (i : ℕ)
  | stop (i : ℕ)
  | finish (i : ℕ) (succeeded : Bool)
  | cancel (sessionId runId : Json.JsString)
  | sweep
  | tick (ms : ℕ)

/-- What `validateCancelEnvelope` asks of an id. -/
def cancelId (text : Json.JsString) : Bool := 1 ≤ jsLength text && jsLength text ≤ 128

/-- The run that a cancellation names. -/
def namedRun (sessionId runId : Json.JsString) : Option ToolRun :=
  (Context.run ⟨sessionId, runId, []⟩).toOption

inductive Step (cfg : Wrapper.Config) : Bridge → Action → Bridge → Prop
  | wrapper {s : Bridge} {action : Wrapper.Action} {t : System}
      (h : Wrapper.Step cfg s.wrapper action t) :
      Step cfg s (.wrapper action) { s with wrapper := t }
  | arrive {s : Bridge} (request : Request) :
      Step cfg s (.arrive request)
        { s with
          calls := update s.calls s.next (some (Call.new request))
          next := s.next + 1 }
  | status {s : Bridge} {i : ℕ} {c : Call} (answer : StatusAnswer) (hcall : s.calls i = some c)
      (hphase : c.phase = .checking ∨ c.phase = .confirming) :
      Step cfg s (.status i answer) (s.setPhase i (c.afterStatus answer))
  | switchAnswer {s : Bridge} {i : ℕ} {c : Call} (answer : SwitchAnswer)
      (hcall : s.calls i = some c) (hphase : c.phase = .switching) :
      Step cfg s (.switchAnswer i answer) (s.setPhase i (checkSwitch answer).phase)
  | acquire {s : Bridge} {i : ℕ} {c : Call} (hcall : s.calls i = some c)
      (hphase : c.phase = .admitted) : Step cfg s (.acquire i) (s.acquire i c)
  | waitTimeout {s : Bridge} {i : ℕ} {c : Call} (hcall : s.calls i = some c)
      (hphase : c.phase = .queued) :
      Step cfg s (.waitTimeout i)
        ((s.setGate c.request.kind ((s.gate c.request.kind).remove (· = i))).setPhase i
          (.ended false))
  | disconnect {s : Bridge} {i : ℕ} {c : Call} (hcall : s.calls i = some c) :
      Step cfg s (.disconnect i)
        (s.mapCalls fun j c => if j = i then { c with gone := true } else c).dropAborted
  | start {s : Bridge} {i : ℕ} {c : Call} (hcall : s.calls i = some c) (hphase : c.phase = .leased)
      -- A request of an aborted signal sends nothing.
      (hsent : c.request.kind = .model → s.aborted c = false) :
      Step cfg s (.start i) (s.setPhase i .running)
  | retry {s : Bridge} {i : ℕ} {c : Call} (hcall : s.calls i = some c) (hphase : c.phase = .running)
      (hmodel : c.request.kind = .model) (hsent : s.aborted c = false) : Step cfg s (.retry i) s
  | stop {s : Bridge} {i : ℕ} {c : Call} (hcall : s.calls i = some c)
      (hphase : c.phase = .leased) : Step cfg s (.stop i) (s.release i c false)
  | finish {s : Bridge} {i : ℕ} {c : Call} (succeeded : Bool) (hcall : s.calls i = some c)
      (hphase : c.phase = .running) : Step cfg s (.finish i succeeded) (s.release i c succeeded)
  | cancel {s : Bridge} {sessionId runId : Json.JsString} (hsession : cancelId sessionId = true)
      (hrun : cancelId runId = true) :
      Step cfg s (.cancel sessionId runId)
        ({ s with
          sessions := s.sessions.cancelAndClose ⟨sessionId, runId⟩
          acknowledged := ((namedRun sessionId runId).toList.map fun run => (run, s.next)) ++
            s.acknowledged } : Bridge).dropAborted
  | sweep {s : Bridge} :
      Step cfg s .sweep ({ s with sessions := s.sessions.sweep s.now } : Bridge).dropAborted
  | tick {s : Bridge} (ms : ℕ) :
      Step cfg s (.tick ms) ({ s with now := s.now + ms } : Bridge).dropAborted

structure GateLimits where
  maxInflightModelCalls : ℕ
  maxQueuedModelCalls : ℕ
  maxInflight : ℕ
  maxQueued : ℕ

def startup (mode : Mode) (disk : String → Option (List ℕ)) (limits : GateLimits) : Bridge where
  wrapper := Wrapper.startup mode disk
  calls := fun _ => none
  next := 0
  modelGate := .new limits.maxInflightModelCalls limits.maxQueuedModelCalls
  toolGate := .new limits.maxInflight limits.maxQueued
  sessions := .empty
  now := 0
  acknowledged := []

/-! ### Calls and queues -/

section

variable (s : Bridge)

include s

@[simp] theorem gate_setGate_self (kind : Kind) (g : Gate) : (s.setGate kind g).gate kind = g := by
  cases kind <;> rfl

theorem gate_setGate_of_ne {kind other : Kind} (h : other ≠ kind) (g : Gate) :
    (s.setGate kind g).gate other = s.gate other := by
  cases kind <;> cases other <;> first | rfl | exact absurd rfl h

@[simp] theorem calls_setGate (kind : Kind) (g : Gate) : (s.setGate kind g).calls = s.calls := by
  cases kind <;> rfl

@[simp] theorem gate_mapCalls (f : ℕ → Call → Call) (kind : Kind) :
    (s.mapCalls f).gate kind = s.gate kind := by
  cases kind <;> rfl

@[simp] theorem gate_setPhase (i : ℕ) (phase : Phase) (kind : Kind) :
    (s.setPhase i phase).gate kind = s.gate kind := gate_mapCalls s _ kind

theorem calls_setPhase (i : ℕ) (phase : Phase) (j : ℕ) :
    (s.setPhase i phase).calls j =
      (s.calls j).map fun c => if j = i then { c with phase := phase } else c := rfl

end

/-- The calls in a queue are there once and wait. -/
structure Bridge.Queued (s : Bridge) (kind : Kind) : Prop where
  nodup : (s.gate kind).queue.Nodup
  waits : ∀ i ∈ (s.gate kind).queue, ∃ c, s.calls i = some c ∧ c.phase = .queued ∧
    c.request.kind = kind

structure Bridge.Coherent (s : Bridge) : Prop where
  fresh : ∀ i, s.next ≤ i → s.calls i = none
  queued : ∀ kind, s.Queued kind

variable {s : Bridge} {kind : Kind} {i : ℕ} {c : Call}

theorem Bridge.Queued.not_mem (h : s.Queued kind) (hcall : s.calls i = some c)
    (hphase : c.phase ≠ .queued) : i ∉ (s.gate kind).queue := by
  intro hi
  obtain ⟨c', hcall', hqueued, -⟩ := h.waits i hi
  rw [hcall] at hcall'
  exact hphase (some.inj hcall' ▸ hqueued)

theorem Bridge.Queued.congr {s s' : Bridge} (h : s.Queued kind)
    (hqueue : (s'.gate kind).queue = (s.gate kind).queue)
    (hcalls : ∀ i ∈ (s.gate kind).queue, s'.calls i = s.calls i) : s'.Queued kind := by
  constructor
  case nodup =>
    rw [hqueue]
    exact h.nodup
  case waits =>
    rw [hqueue]
    intro i hi
    rw [hcalls i hi]
    exact h.waits i hi

section

variable (h : s.Queued kind)

include h

theorem Bridge.Queued.setPhase (hi : i ∉ (s.gate kind).queue) (phase : Phase) :
    (s.setPhase i phase).Queued kind := by
  refine h.congr (by rw [gate_setPhase]) fun j hj => ?_
  have hne : j ≠ i := fun hji => hi (hji ▸ hj)
  rw [calls_setPhase]
  cases s.calls j with
  | none => rfl
  | some c => simp [hne]

theorem Bridge.Queued.dropAborted : s.dropAborted.Queued kind := by
  have hqueue : (s.dropAborted.gate kind).queue =
      (s.gate kind).queue.filter fun i => !(s.calls i).any s.aborted := by
    cases kind <;> rfl
  constructor
  case nodup =>
    rw [hqueue]
    exact h.nodup.filter _
  case waits =>
    intro i hi
    rw [hqueue, mem_filter] at hi
    obtain ⟨c, hcall, hphase, hkind⟩ := h.waits i hi.1
    have haborted : s.aborted c = false := by simpa [hcall] using hi.2
    exact ⟨c, by simp [Bridge.dropAborted, hcall, haborted], hphase, hkind⟩

theorem Bridge.Queued.mapCalls {f : ℕ → Call → Call}
    (hf : ∀ i c, (f i c).phase = c.phase ∧ (f i c).request = c.request) :
    (s.mapCalls f).Queued kind := by
  constructor
  case nodup => simpa using h.nodup
  case waits =>
    intro i hi
    obtain ⟨c, hcall, hphase, hkind⟩ := h.waits i hi
    refine ⟨f i c, by simp [Bridge.mapCalls, hcall], ?_, ?_⟩
    · rw [(hf i c).1, hphase]
    · rw [(hf i c).2, hkind]

theorem Bridge.Queued.acquireGate (hcall : s.calls i = some c) (hi : i ∉ (s.gate kind).queue) :
    (s.acquireGate i c).Queued kind := by
  unfold Bridge.acquireGate
  simp only
  by_cases hkind : kind = c.request.kind
  · subst hkind
    rcases acquire_queue c.request.kind (s.aborted c) i (s.gate c.request.kind) with
      ⟨hacquired, -, hqueue⟩ | ⟨-, hqueue⟩
    · rw [hacquired]
      constructor
      case nodup =>
        rw [gate_setPhase, gate_setGate_self, hqueue]
        exact nodup_append.2 ⟨h.nodup, by simp, fun a ha b hb hab => by
          rw [mem_singleton.1 hb] at hab
          exact hi (hab ▸ ha)⟩
      case waits =>
        intro j hj
        rw [gate_setPhase, gate_setGate_self, hqueue, mem_append, mem_singleton] at hj
        rw [calls_setPhase]
        rcases hj with hj | rfl
        · obtain ⟨d, hd, hphase, hkind⟩ := h.waits j hj
          have hne : j ≠ i := fun hji => hi (hji ▸ hj)
          exact ⟨d, by simp [hd, hne], hphase, hkind⟩
        · exact ⟨{ c with phase := .queued }, by simp [hcall, Acquired.phase], rfl, rfl⟩
    · refine Bridge.Queued.setPhase ?_ ?_ _
      · refine h.congr ?_ fun _ _ => by rw [calls_setGate]
        rw [gate_setGate_self, hqueue]
      · rw [gate_setGate_self, hqueue]
        exact hi
  · refine Bridge.Queued.setPhase ?_ ?_ _
    · refine h.congr ?_ fun _ _ => by rw [calls_setGate]
      rw [gate_setGate_of_ne s hkind]
    · rw [gate_setGate_of_ne s hkind]
      exact hi

theorem Bridge.Queued.release (hown : s.Queued c.request.kind) (hi : i ∉ (s.gate kind).queue)
    (succeeded : Bool) : (s.release i c succeeded).Queued kind := by
  have hsplit := release_append c.request.kind (s.gate c.request.kind)
  unfold Bridge.release
  by_cases hkind : kind = c.request.kind
  · subst hkind
    have hnodup := h.nodup
    rw [← hsplit, nodup_append] at hnodup
    constructor
    case nodup =>
      rw [gate_mapCalls, gate_setGate_self]
      exact hnodup.2.1
    case waits =>
      intro j hj
      rw [gate_mapCalls, gate_setGate_self] at hj
      have hmem : j ∈ (s.gate c.request.kind).queue := by
        rw [← hsplit]
        exact mem_append_right _ hj
      obtain ⟨d, hd, hphase, hkind⟩ := h.waits j hmem
      have hne : j ≠ i := fun hji => hi (hji ▸ hmem)
      have hstays : j ∉ ((s.gate c.request.kind).release c.request.kind).2 :=
        fun hleased => hnodup.2.2 j hleased j hj rfl
      exact ⟨d, by simp [Bridge.mapCalls, hd, hne, hstays], hphase, hkind⟩
  · constructor
    case nodup =>
      rw [gate_mapCalls, gate_setGate_of_ne s hkind]
      exact h.nodup
    case waits =>
      intro j hj
      rw [gate_mapCalls, gate_setGate_of_ne s hkind] at hj
      obtain ⟨d, hd, hphase, hkindj⟩ := h.waits j hj
      have hne : j ≠ i := fun hji => hi (hji ▸ hj)
      -- A call waits at its own gate only.
      have hstays : j ∉ ((s.gate c.request.kind).release c.request.kind).2 := by
        intro hleased
        have hmem : j ∈ (s.gate c.request.kind).queue := by
          rw [← hsplit]
          exact mem_append_left _ hleased
        obtain ⟨d', hd', -, hkindd⟩ := hown.waits j hmem
        rw [hd] at hd'
        rw [some.inj hd', hkindd] at hkindj
        exact hkind hkindj.symm
      exact ⟨d, by simp [Bridge.mapCalls, hd, hne, hstays], hphase, hkindj⟩

theorem Bridge.Queued.waitTimeout (hcall : s.calls i = some c) :
    ((s.setGate c.request.kind ((s.gate c.request.kind).remove (· = i))).setPhase i
      (.ended false)).Queued kind := by
  by_cases hkind : kind = c.request.kind
  · subst hkind
    refine Bridge.Queued.setPhase ?_ ?_ _
    · constructor
      case nodup =>
        rw [gate_setGate_self]
        exact h.nodup.filter _
      case waits =>
        intro j hj
        rw [gate_setGate_self] at hj
        rw [calls_setGate]
        exact h.waits j (mem_of_mem_filter hj)
    · rw [gate_setGate_self]
      simp [Gate.remove]
  · refine Bridge.Queued.setPhase ?_ ?_ _
    · refine h.congr ?_ fun _ _ => by rw [calls_setGate]
      rw [gate_setGate_of_ne s hkind]
    · rw [gate_setGate_of_ne s hkind]
      intro hi
      obtain ⟨d, hd, -, hkindd⟩ := h.waits i hi
      rw [hcall] at hd
      rw [← some.inj hd] at hkindd
      exact hkind hkindd.symm

theorem Bridge.Queued.acquire (hcall : s.calls i = some c) (hphase : c.phase = .admitted) :
    (s.acquire i c).Queued kind := by
  have hi : i ∉ (s.gate kind).queue := h.not_mem hcall (by rw [hphase]; decide)
  unfold Bridge.acquire
  split
  · exact h.acquireGate hcall hi
  · split
    · exact h.setPhase hi _
    · refine Bridge.Queued.acquireGate ?_ (by simp) ?_
      · refine h.congr (by cases kind <;> rfl) fun j hj => ?_
        have hne : j ≠ i := fun hji => hi (hji ▸ hj)
        exact update_of_ne hne _ _
      · cases kind <;> exact hi

end

variable {j : ℕ} {phase : Phase}

theorem calls_setPhase_eq_none : (s.setPhase i phase).calls j = none ↔ s.calls j = none := by
  rw [calls_setPhase, map_eq_none_iff]

theorem calls_acquire_eq_none (hcall : s.calls i = some c) (h : s.calls j = none) :
    (s.acquire i c).calls j = none := by
  have hne : j ≠ i := fun hji => by
    rw [hji, hcall] at h
    cases h
  unfold Bridge.acquire
  split
  · exact calls_setPhase_eq_none.2 (by rw [calls_setGate]; exact h)
  · split
    · exact calls_setPhase_eq_none.2 h
    · refine calls_setPhase_eq_none.2 ?_
      simp [hne, h]

theorem calls_dropAborted_eq_none (h : s.calls j = none) : s.dropAborted.calls j = none := by
  simp [Bridge.dropAborted, h]

theorem calls_release_eq_none {succeeded : Bool} (h : s.calls j = none) :
    (s.release i c succeeded).calls j = none := by
  simp [Bridge.release, Bridge.mapCalls, h]

variable {cfg : Wrapper.Config} {s s' : Bridge} {a : Action}

theorem next_setPhase (s : Bridge) (i : ℕ) (phase : Phase) :
    (s.setPhase i phase).next = s.next := rfl

theorem next_setGate (s : Bridge) (kind : Kind) (g : Gate) : (s.setGate kind g).next = s.next := by
  cases kind <;> rfl

theorem next_acquire (s : Bridge) (i : ℕ) (c : Call) : (s.acquire i c).next = s.next := by
  unfold Bridge.acquire
  split
  · exact next_setGate _ _ _
  · split
    · rfl
    · exact next_setGate _ _ _

theorem next_release (s : Bridge) (i : ℕ) (c : Call) (succeeded : Bool) :
    (s.release i c succeeded).next = s.next := next_setGate _ _ _

theorem Step.fresh (hstep : Step cfg s a s') (h : ∀ i, s.next ≤ i → s.calls i = none) :
    ∀ i, s'.next ≤ i → s'.calls i = none := by
  intro j hj
  cases hstep with
  | wrapper => exact h j hj
  | arrive request =>
    have hne : j ≠ s.next := by
      rintro rfl
      exact absurd hj (Nat.not_succ_le_self _)
    simp only [update_of_ne hne]
    exact h j (Nat.le_of_succ_le hj)
  | status answer hcall hphase => exact calls_setPhase_eq_none.2 (h j hj)
  | switchAnswer answer hcall hphase => exact calls_setPhase_eq_none.2 (h j hj)
  | acquire hcall hphase =>
    rw [next_acquire] at hj
    exact calls_acquire_eq_none hcall (h j hj)
  | waitTimeout hcall hphase =>
    rw [next_setPhase, next_setGate] at hj
    refine calls_setPhase_eq_none.2 ?_
    rw [calls_setGate]
    exact h j hj
  | disconnect hcall => exact calls_dropAborted_eq_none (by simp [Bridge.mapCalls, h j hj])
  | start hcall hphase hsent => exact calls_setPhase_eq_none.2 (h j hj)
  | retry => exact h j hj
  | stop hcall hphase | finish succeeded hcall hphase =>
    rw [next_release] at hj
    exact calls_release_eq_none (h j hj)
  | cancel => exact calls_dropAborted_eq_none (h j hj)
  | sweep => exact calls_dropAborted_eq_none (h j hj)
  | tick ms => exact calls_dropAborted_eq_none (h j hj)

theorem Step.queued (hstep : Step cfg s a s') (h : s.Coherent) (kind : Kind) : s'.Queued kind := by
  have hqueued := h.queued kind
  cases hstep with
  | wrapper => exact hqueued.congr (by cases kind <;> rfl) fun _ _ => rfl
  | arrive request =>
    refine hqueued.congr (by cases kind <;> rfl) fun j hj => ?_
    obtain ⟨d, hd, -⟩ := hqueued.waits j hj
    refine update_of_ne (fun hji => ?_) _ _
    rw [hji, h.fresh s.next le_rfl] at hd
    cases hd
  | status answer hcall hphase =>
    refine hqueued.setPhase (hqueued.not_mem hcall ?_) _
    rcases hphase with hphase | hphase <;> rw [hphase] <;> decide
  | switchAnswer answer hcall hphase =>
    exact hqueued.setPhase (hqueued.not_mem hcall (by rw [hphase]; decide)) _
  | acquire hcall hphase => exact hqueued.acquire hcall hphase
  | waitTimeout hcall hphase => exact hqueued.waitTimeout hcall
  | disconnect hcall =>
    refine Bridge.Queued.dropAborted (hqueued.mapCalls fun j c => ?_)
    split <;> exact ⟨rfl, rfl⟩
  | start hcall hphase hsent =>
    exact hqueued.setPhase (hqueued.not_mem hcall (by rw [hphase]; decide)) _
  | retry => exact hqueued
  | stop hcall hphase | finish succeeded hcall hphase =>
    exact hqueued.release (h.queued _) (hqueued.not_mem hcall (by rw [hphase]; decide)) _
  | cancel | sweep | tick ms =>
    refine Bridge.Queued.dropAborted ?_
    exact hqueued.congr (by cases kind <;> rfl) fun _ _ => rfl

theorem Step.coherent (hstep : Step cfg s a s') (h : s.Coherent) : s'.Coherent :=
  ⟨hstep.fresh h.fresh, hstep.queued h⟩

/-! ### What a step does to a call -/

inductive Moves (a : Action) (i : ℕ) (c : Call) : Call → Prop
  | stay : Moves a i c c
  | disconnected (ha : a = .disconnect i) : Moves a i c { c with gone := true }
  | dropped (gone : Bool) (hphase : c.phase = .queued) :
      Moves a i c { c with gone := gone, phase := .ended false }
  | checked {answer : StatusAnswer} (ha : a = .status i answer)
      (hphase : c.phase = .checking ∨ c.phase = .confirming) :
      Moves a i c { c with phase := c.afterStatus answer }
  | switched {answer : SwitchAnswer} (ha : a = .switchAnswer i answer)
      (hphase : c.phase = .switching) : Moves a i c { c with phase := (checkSwitch answer).phase }
  | acquired (record : Option ℕ) (startedAt : ℕ) (acquired : Acquired) (ha : a = .acquire i)
      (hphase : c.phase = .admitted) :
      Moves a i c { c with record := record, startedAt := startedAt, phase := acquired.phase }
  | leased (hphase : c.phase = .queued) : Moves a i c { c with phase := .leased }
  | started (ha : a = .start i) (hphase : c.phase = .leased) :
      Moves a i c { c with phase := .running }
  | ended (succeeded : Bool)
      (hphase : c.phase = .running ∨ (c.phase = .leased ∧ succeeded = false)) :
      Moves a i c { c with phase := .ended succeeded }

variable {c' : Call}

theorem calls_setPhase_eq_some (h : (s.setPhase i phase).calls j = some c') :
    ∃ c, s.calls j = some c ∧
      ((j = i ∧ c' = { c with phase := phase }) ∨ (j ≠ i ∧ c' = c)) := by
  rw [calls_setPhase, map_eq_some_iff] at h
  obtain ⟨c, hcall, rfl⟩ := h
  by_cases hj : j = i
  · exact ⟨c, hcall, .inl ⟨hj, if_pos hj⟩⟩
  · exact ⟨c, hcall, .inr ⟨hj, if_neg hj⟩⟩

theorem moves_setPhase (hcall : s.calls i = some c) (h : Moves a i c { c with phase := phase })
    (hcall' : (s.setPhase i phase).calls j = some c') :
    ∃ d, s.calls j = some d ∧ Moves a j d c' := by
  obtain ⟨d, hd, ⟨rfl, rfl⟩ | ⟨-, rfl⟩⟩ := calls_setPhase_eq_some hcall'
  · obtain rfl : c = d := some.inj (hcall.symm.trans hd)
    exact ⟨c, hd, h⟩
  · exact ⟨c', hd, .stay⟩

theorem moves_dropAborted (hcall' : s.dropAborted.calls j = some c') :
    ∃ c, s.calls j = some c ∧ Moves a j c c' := by
  obtain ⟨c, hcall, rfl⟩ := map_eq_some_iff.1 hcall'
  refine ⟨c, hcall, ?_⟩
  split
  · rename_i hdrop
    exact .dropped c.gone hdrop.1
  · exact .stay

theorem moves_disconnect {i : ℕ} (hcall' : (s.mapCalls fun k c =>
      if k = i then { c with gone := true } else c).dropAborted.calls j = some c') :
    ∃ c, s.calls j = some c ∧ Moves (.disconnect i) j c c' := by
  obtain ⟨d, hd, rfl⟩ := map_eq_some_iff.1 hcall'
  obtain ⟨c, hcall, rfl⟩ := map_eq_some_iff.1 hd
  refine ⟨c, hcall, ?_⟩
  by_cases hj : j = i
  · simp only [if_pos hj]
    split
    · rename_i hdrop
      exact .dropped true hdrop.1
    · exact .disconnected (by rw [hj])
  · simp only [if_neg hj]
    split
    · rename_i hdrop
      exact .dropped c.gone hdrop.1
    · exact .stay

theorem calls_acquireGate (s : Bridge) (i : ℕ) (c : Call) :
    (s.acquireGate i c).calls = (s.setPhase i
      ((s.gate c.request.kind).acquire c.request.kind (s.aborted c) i).2.phase).calls := by
  funext j
  simp only [Bridge.acquireGate, calls_setPhase, calls_setGate]

theorem moves_acquire (hcall : s.calls i = some c) (hphase : c.phase = .admitted)
    (hcall' : (s.acquire i c).calls j = some c') :
    ∃ d, s.calls j = some d ∧ Moves (.acquire i) j d c' := by
  unfold Bridge.acquire at hcall'
  split at hcall'
  · rw [calls_acquireGate] at hcall'
    exact moves_setPhase hcall (.acquired c.record c.startedAt _ rfl hphase) hcall'
  · split at hcall'
    · exact moves_setPhase hcall (.acquired c.record c.startedAt (.rejected "") rfl hphase) hcall'
    · rw [calls_acquireGate] at hcall'
      obtain ⟨d, hd, hcases⟩ := calls_setPhase_eq_some hcall'
      change update s.calls i _ j = some d at hd
      by_cases hj : j = i
      · subst hj
        rw [update_self] at hd
        obtain rfl := some.inj hd
        rcases hcases with ⟨-, rfl⟩ | ⟨hne, -⟩
        · exact ⟨c, hcall, .acquired _ _ _ rfl hphase⟩
        · exact absurd rfl hne
      · rw [update_of_ne hj] at hd
        rcases hcases with ⟨hji, -⟩ | ⟨-, rfl⟩
        · exact absurd hji hj
        · exact ⟨c', hd, .stay⟩

theorem calls_release (s : Bridge) (i : ℕ) (c : Call) (succeeded : Bool) (j : ℕ) :
    (s.release i c succeeded).calls j = (s.calls j).map fun d =>
      if j = i then { d with phase := .ended succeeded }
      else if j ∈ ((s.gate c.request.kind).release c.request.kind).2 then
        { d with phase := .leased }
      else d := by
  simp only [Bridge.release, Bridge.mapCalls, calls_setGate]

theorem moves_release {succeeded : Bool} (hcall : s.calls i = some c)
    (hphase : c.phase = .running ∨ (c.phase = .leased ∧ succeeded = false))
    (hqueued : s.Queued c.request.kind) (hcall' : (s.release i c succeeded).calls j = some c') :
    ∃ d, s.calls j = some d ∧ Moves a j d c' := by
  rw [calls_release, map_eq_some_iff] at hcall'
  obtain ⟨d, hd, rfl⟩ := hcall'
  refine ⟨d, hd, ?_⟩
  by_cases hj : j = i
  · subst hj
    obtain rfl := some.inj (hcall.symm.trans hd)
    rw [if_pos rfl]
    exact .ended succeeded hphase
  · rw [if_neg hj]
    split
    · rename_i hleased
      have hmem : j ∈ (s.gate c.request.kind).queue := by
        rw [← release_append c.request.kind (s.gate c.request.kind)]
        exact mem_append_left _ hleased
      obtain ⟨d', hd', hwaits, -⟩ := hqueued.waits j hmem
      rw [hd] at hd'
      rw [← some.inj hd'] at hwaits
      exact .leased hwaits
    · exact .stay

theorem Step.moves (hstep : Step cfg s a s') (h : s.Coherent) (hcall' : s'.calls i = some c') :
    (∃ request, a = .arrive request ∧ i = s.next ∧ c' = Call.new request) ∨
      ∃ c, s.calls i = some c ∧ Moves a i c c' := by
  cases hstep with
  | wrapper => exact .inr ⟨c', hcall', .stay⟩
  | arrive request =>
    by_cases hi : i = s.next
    · subst hi
      simp only [update_self, some.injEq] at hcall'
      exact .inl ⟨request, rfl, rfl, hcall'.symm⟩
    · simp only [update_of_ne hi] at hcall'
      exact .inr ⟨c', hcall', .stay⟩
  | status answer hcall hphase => exact .inr (moves_setPhase hcall (.checked rfl hphase) hcall')
  | switchAnswer answer hcall hphase =>
    exact .inr (moves_setPhase hcall (.switched rfl hphase) hcall')
  | acquire hcall hphase => exact .inr (moves_acquire hcall hphase hcall')
  | waitTimeout hcall hphase =>
    refine .inr (moves_setPhase hcall (.dropped _ hphase) ?_)
    simpa only [calls_setPhase, calls_setGate] using hcall'
  | disconnect hcall => exact .inr (moves_disconnect hcall')
  | start hcall hphase hsent => exact .inr (moves_setPhase hcall (.started rfl hphase) hcall')
  | retry => exact .inr ⟨c', hcall', .stay⟩
  | stop hcall hphase =>
    exact .inr (moves_release hcall (.inr ⟨hphase, rfl⟩) (h.queued _) hcall')
  | finish succeeded hcall hphase =>
    exact .inr (moves_release hcall (.inl hphase) (h.queued _) hcall')
  | cancel | sweep | tick ms =>
    obtain ⟨c, hcall, hmoves⟩ := moves_dropAborted hcall'
    exact .inr ⟨c, hcall, hmoves⟩

theorem startup_coherent (mode : Mode) (disk : String → Option (List ℕ)) (limits : GateLimits) :
    (startup mode disk limits).Coherent := by
  refine ⟨fun _ _ => rfl, fun kind => ?_⟩
  cases kind <;> exact ⟨nodup_nil, fun _ hi => absurd hi not_mem_nil⟩

end Ds4Studio.Agno
