import Ds4Studio.Evolution.RunEvents
import Ds4Studio.Lib.Run

/-!
The calls of the models over a whole run of the automatic loop: who records them, what the budget
counts of them, and where the two come apart.
-/

namespace Ds4Studio.Evolution.CallBudget

open List Run

/-! ### One answer of a role -/

/-- `positive` -/
def positive (n : ℤ) : ℕ := if 0 ≤ n ∧ n ≤ 2 ^ 53 - 1 then n.toNat else 0

/-- What `completeRole` returns to one semantic call. -/
structure Reply where
  /-- The transport calls that it took, if it says so. -/
  attempts : Option ℕ
  /-- Prompt and completion tokens, if the usage is complete. -/
  usage : Option (ℤ × ℤ)
  valid : Bool
  responseHash : String

def Reply.calls (r : Reply) : ℕ := (r.attempts.filter fun n => 0 < n).getD 1

/-- What is kept of an answer. -/
structure Evidence where
  promptTokens : ℤ := 0
  completionTokens : ℤ := 0
  calls : ℕ := 0
  responseHash : String := ""

def Evidence.add (e : Evidence) (r : Reply) (usage : ℤ × ℤ) : Evidence where
  promptTokens := e.promptTokens + usage.1
  completionTokens := e.completionTokens + usage.2
  calls := e.calls + r.calls
  responseHash := r.responseHash

/-- The loop of `completeStructured`; replies that run out are a transport that fails. -/
def complete (repairs : ℕ) (e : Evidence) : List Reply → Option Evidence
  | [] => none
  | r :: rest =>
      match r.usage with
      | none => none
      | some usage =>
          if r.valid then some (e.add r usage)
          else
            match repairs with
            | 0 => none
            | left + 1 => complete left (e.add r usage) rest

/-- `completeStructured` -/
def completeStructured (maxRepairs : ℤ) (replies : List Reply) : Option Evidence :=
  complete (if 0 < maxRepairs then 1 else 0) {} replies

/-! ### The state of a run -/

structure Contract where
  budgets : Budgets
  /-- The contract asks for the critic, and there is one. -/
  criticEnabled : Bool

def Contract.limit (c : Contract) : ℤ :=
  (c.budgets.get "maxModelCallsPerRevision").getD (2 ^ 53 - 1)

def Contract.repairs (c : Contract) (key : String) : ℤ := (c.budgets.get key).getD 1

/-- An event of the ledger with the `calls` of its payload. -/
structure Entry where
  event : RunEvent
  calls : ℕ := 0

/-- The answers stored for a revision; the proposal may ask to stop. -/
structure Files where
  proposal : Option (Evidence × Bool) := none
  patch : Option Evidence := none

inductive Point where
  | idle
  | capturing
  | evaluating
  | captured
  | ready
  | proposing (revision : ℕ)
  | proposed (revision : ℕ) (p : Evidence × Bool)
  | afterProposal (revision : ℕ) (stopInstead : Bool)
  | patching (revision : ℕ)
  | patched (revision : ℕ) (q : Evidence)
  | afterPatch (revision : ℕ)
  | building (revision : ℕ) (stopInstead : Bool)
  | workspace (revision : ℕ) (stopInstead : Bool)
  | candidate (revision : ℕ)
  | candidateRejected (revision : ℕ)
  | executing (revision : ℕ)
  | executed (revision : ℕ)
  | evaluated (revision : ℕ)
  | diagnosing (revision : ℕ)
  | diagnosed (revision : ℕ)
  | gating (revision : ℕ)
  | promoted (revision : ℕ)

structure State where
  ledger : List Entry
  files : ℕ → Files
  point : Point

def State.events (s : State) : List RunEvent := s.ledger.map Entry.event

def State.revision (s : State) : ℕ := runRevision s.events

def State.goto (s : State) (point : Point) : State := ⟨s.ledger, s.files, point⟩

def State.append (s : State) (e : Entry) (point : Point) : State :=
  ⟨s.ledger ++ [e], s.files, point⟩

def State.note (s : State) (revision : ℕ) (name : String) (point : Point) : State :=
  s.append ⟨{ revision := revision, type := .other name }, 0⟩ point

/-- `transitionRun` -/
def State.transitionTo (s : State) (revision : ℕ) (target : RunState) (reason : Option String)
    (point : Point) : State :=
  s.append ⟨transition revision target reason, 0⟩ point

/-- `orchestrator.stop` -/
def State.stop (s : State) (reason : String) : State :=
  s.transitionTo s.revision .stopped (some reason) .idle

def State.store (s : State) (revision : ℕ) (f : Files) (point : Point) : State :=
  ⟨s.ledger, Function.update s.files revision f, point⟩

/-! ### Recording -/

def callEntry (revision : ℕ) (role : Role) (e : Evidence) : Entry where
  event :=
    { revision := revision
      type := .modelCallCompleted role e.responseHash
      promptTokens := positive e.promptTokens
      completionTokens := positive e.completionTokens }
  calls := e.calls

def isRecorded (revision : ℕ) (role : Role) (e : Evidence) (events : List RunEvent) : Bool :=
  events.any fun event => event.revision = revision &&
    event.type = .modelCallCompleted role e.responseHash

/-- The event of `ensureModelEvidence`. -/
def State.record (s : State) (revision : ℕ) (role : Role) (e : Evidence) (point : Point) : State :=
  if isRecorded revision role e s.events then s.goto point
  else s.append (callEntry revision role e) point

/-! ### The steps -/

/-- What the promotion gate comes to. -/
inductive Verdict where
  | rejected | manualReview | promoted | failed

def Verdict.target : Verdict → RunState
  | .rejected => .rejected
  | .manualReview => .manualReview
  | .promoted => .promoted
  | .failed => .failed

/-- What a step finds: whether what it checks is in order, and what the model answers. -/
structure Answer where
  inOrder : Bool := true
  replies : List Reply := []
  stopInstead : Bool := false
  verdict : Verdict := .rejected

inductive Action where
  /-- `runOneRevision` goes on by a step, or is called. -/
  | call (a : Answer)
  /-- The call throws, or its process is lost. -/
  | interrupt
  /-- Another part of the server records something. -/
  | note (name : String)
  /-- The run is stopped between two calls, by `runUntilPause` or by hand. -/
  | stop (reason : String)
  | review (approved : Bool)

/-- The first check of `runOneRevision`. -/
def State.begin (c : Contract) (a : Answer) (s : State) : State :=
  match decideLoopContinuation (runState s.events) (deriveBudgetState c.budgets s.events) with
  | .halted | .stateNotRunnable => s.goto .idle
  | .budgetExhausted => s.stop "BUDGET_EXHAUSTED"
  | .go =>
      if a.inOrder then s.goto (.proposing (s.revision + 1))
      else s.stop "NO_IMPROVEMENT_LIMIT_REACHED"

/-- A step of `runOneRevision`, of `prepareBaseline` in front of it and of `buildRevision`,
`executeAndEvaluate` and `gateRevision` behind it. -/
def advance (c : Contract) (a : Answer) (s : State) : State :=
  match s.point with
  | .idle =>
      if runState s.events = .created then
        s.transitionTo s.revision .baselineCapturing none .capturing
      else s.begin c a
  | .capturing =>
      if a.inOrder then s.transitionTo s.revision .baselineEvaluating none .evaluating
      else s.transitionTo s.revision .failed (some "BASELINE_CAPTURE_FAILED") .idle
  | .evaluating => s.note 0 "BASELINE_CAPTURED" .captured
  | .captured =>
      if a.inOrder then s.transitionTo s.revision .baselineReady none .ready
      else s.transitionTo s.revision .failed (some "BASELINE_EVALUATION_FAILED") .idle
  | .ready => s.begin c a
  | .proposing r =>
      match (s.files r).proposal with
      | some p => s.goto (.proposed r p)
      | none =>
          match completeStructured (c.repairs "maxProposerRepairs") a.replies with
          | none => s.goto .idle
          | some e =>
              s.store r { s.files r with proposal := some (e, a.stopInstead) }
                (.proposed r (e, a.stopInstead))
  | .proposed r p => s.record r .proposer p.1 (.afterProposal r p.2)
  | .afterProposal r stopInstead =>
      if stopInstead then s.goto (.building r true)
      else if (deriveBudgetState c.budgets s.events).exceeded then s.stop "BUDGET_EXHAUSTED"
      else s.goto (.patching r)
  | .patching r =>
      match (s.files r).patch with
      | some q => s.goto (.patched r q)
      | none =>
          match completeStructured (c.repairs "maxProposerRepairs") a.replies with
          | none => s.goto .idle
          | some e => s.store r { s.files r with patch := some e } (.patched r e)
  | .patched r q => s.record r .patcher q (.afterPatch r)
  | .afterPatch r =>
      if (deriveBudgetState c.budgets s.events).exceeded then s.stop "BUDGET_EXHAUSTED"
      else s.goto (.building r false)
  | .building r stopInstead =>
      if r ≠ parentRevision s.events + 1 then s.goto .idle
      else if (c.budgets.get "maxRevisions").any fun n => n < (r : ℤ) then
        s.transitionTo (parentRevision s.events) .stopped (some "REVISION_BUDGET_EXHAUSTED") .idle
      else if a.inOrder then s.transitionTo r .proposing none (.workspace r stopInstead)
      else s.transitionTo (parentRevision s.events) .failed (some "BASELINE_MUTATED") .idle
  | .workspace r stopInstead =>
      if stopInstead then s.transitionTo r .stopped (some "PROPOSER_STOP_ACCEPTED") .idle
      else s.transitionTo r .candidateBuilding none (.candidate r)
  | .candidate r =>
      if a.inOrder then s.transitionTo r .candidateReady none (.executing r)
      else
        match a.verdict with
        | .failed => s.transitionTo r .failed (some "CANDIDATE_SNAPSHOT_MISMATCH") .idle
        | _ => s.note r "CANDIDATE_REJECTED" (.candidateRejected r)
  | .candidateRejected r => s.transitionTo r .rejected (some "CANDIDATE_BUILD_FAILED") .idle
  | .executing r => s.transitionTo r .executing none (.executed r)
  | .executed r =>
      if a.inOrder then s.transitionTo r .evaluating none (.evaluated r)
      else s.transitionTo r .failed (some "INFRASTRUCTURE_FAILURE") .idle
  | .evaluated r => s.transitionTo r .diagnosing none (.diagnosing r)
  | .diagnosing r =>
      if c.criticEnabled then
        match completeStructured (c.repairs "maxCriticRepairs") a.replies with
        | none => s.note r "CRITIC_FAILED" (.diagnosed r)
        | some e => s.append (callEntry r .critic e) (.diagnosed r)
      else s.goto (.diagnosed r)
  | .diagnosed r => s.transitionTo r .gating none (.gating r)
  | .gating r =>
      match a.verdict with
      | .promoted => s.transitionTo r .promoted none (.promoted r)
      | verdict => s.transitionTo r verdict.target none .idle
  | .promoted r =>
      if a.inOrder then s.goto .idle
      else s.transitionTo r .completed (some "TARGET_REACHED") .idle

def step (c : Contract) (s : State) : Action → State
  | .call a => advance c a s
  | .interrupt => s.goto .idle
  | .note name => s.note s.revision name s.point
  | .stop reason =>
      match s.point with
      | .idle => if (runState s.events).terminal then s else s.stop reason
      | _ => s
  | .review approved =>
      match s.point with
      | .idle =>
          if runState s.events = .manualReview then
            if approved then s.transitionTo s.revision .promoted none (.promoted s.revision)
            else s.transitionTo s.revision .rejected (some "HUMAN_REJECTED") .idle
          else s
      | _ => s

def created : State := ⟨[⟨{ revision := 0, type := .runCreated }, 0⟩], fun _ => {}, .idle⟩

/-! ### What is asked of a run -/

/-- The role that the next step asks, and for which revision. -/
def asks (c : Contract) (s : State) : Option (Role × ℕ) :=
  match s.point with
  | .proposing r => if (s.files r).proposal.isNone then some (.proposer, r) else none
  | .patching r => if (s.files r).patch.isNone then some (.patcher, r) else none
  | .diagnosing r => if c.criticEnabled then some (.critic, r) else none
  | _ => none

/-- The transport calls that are recorded for a revision. -/
def transportCalls (r : ℕ) (ledger : List Entry) : ℕ :=
  ((ledger.filter fun e => e.event.isModelCall && e.event.revision = r).map Entry.calls).sum

/-- The totals of tokens and of time are within their limits. -/
def withinTotals (c : Contract) (events : List RunEvent) : Bool :=
  let b := deriveBudgetState c.budgets events
  let limit := fun total perRevision => (c.budgets.get total).or (c.budgets.get perRevision)
  !aboveLimit b.promptTokens (limit "maxTotalPromptTokens" "maxPromptTokensPerRevision") &&
    !aboveLimit b.completionTokens
      (limit "maxTotalCompletionTokens" "maxCompletionTokensPerRevision") &&
    !aboveLimit b.wallTimeMs (limit "maxTotalWallTimeMs" "maxWallTimeMsPerRevision")

/-- The next step is the first check of `runOneRevision`. -/
def State.starts (s : State) : Bool :=
  match s.point with
  | .ready => true
  | .idle => runState s.events ≠ .created
  | _ => false

/-- The revision that would start has neither a call on record nor an answer that is stored. -/
def State.untouched (s : State) : Bool :=
  (s.files (s.revision + 1)).proposal.isNone && transportCalls (s.revision + 1) s.ledger = 0

/-- The step stops the run because of its budget. -/
def stopsForBudget (s t : State) : Prop :=
  t.events = s.events ++ [transition s.revision .stopped (some "BUDGET_EXHAUSTED")]

instance (s t : State) : Decidable (stopsForBudget s t) := by
  unfold stopsForBudget
  infer_instance

/-- No role is asked above the limit of its revision, and no revision is stopped in front of its
first call. -/
def Respected (c : Contract) (s : State) : Action → Prop
  | .call a =>
      ((asks c s).all fun ask => (transportCalls ask.2 s.ledger : ℤ) < c.limit) ∧
        (s.starts → withinTotals c s.events → s.untouched →
          ¬ stopsForBudget s (advance c a s))
  | _ => True

/-! ### When it holds -/

/-- The transport calls of the answers that are stored in front of a role. -/
def Files.before (f : Files) : Role → ℕ
  | .proposer => 0
  | .patcher => (f.proposal.map fun p => p.1.calls).getD 0
  | .critic => (f.proposal.map fun p => p.1.calls).getD 0 + (f.patch.map Evidence.calls).getD 0

/-- The place of a role in a revision. -/
def place : Role → ℕ
  | .proposer => 1
  | .patcher => 2
  | .critic => 3

def eventPlace (e : RunEvent) : ℕ :=
  match e.type with
  | .modelCallCompleted role _ => place role
  | _ => 0

/-- The places of the roles whose answers are recorded for a revision. -/
def places (r : ℕ) (events : List RunEvent) : List ℕ :=
  ((events.filter RunEvent.isModelCall).filter fun e => e.revision = r).map eventPlace

/-- The place of the role that answered last in the last revision, or zero. -/
def lastPlace (events : List RunEvent) : ℕ := ((places (runRevision events) events).getLast?).getD 0

/-- The answers in front of a role took fewer transport calls than the limit, and a revision is
only started where the role that answered last in the one before has a place below it. -/
def Fits (c : Contract) (s : State) : Action → Prop
  | .call _ =>
      ((asks c s).all fun ask => ((s.files ask.2).before ask.1 : ℤ) < c.limit) ∧
        (s.starts → withinTotals c s.events → s.untouched →
          ¬ [RunState.manualReview, .completed, .stopped, .failed].contains (runState s.events) →
          (lastPlace s.events : ℤ) < c.limit)
  | _ => True

/-! ### What is recorded for the last revision -/

def isCallAt (r : ℕ) (e : RunEvent) : Bool := e.isModelCall && e.revision = r

theorem places_append (r : ℕ) (events : List RunEvent) (e : RunEvent) :
    places r (events ++ [e]) =
      places r events ++ if isCallAt r e then [eventPlace e] else [] := by
  unfold places isCallAt
  cases hcall : e.isModelCall with
  | false => simp [hcall]
  | true => by_cases hr : e.revision = r <;> simp [hcall, hr]

theorem transportCalls_append (r : ℕ) (ledger : List Entry) (e : Entry) :
    transportCalls r (ledger ++ [e]) =
      transportCalls r ledger + if isCallAt r e.event then e.calls else 0 := by
  unfold transportCalls isCallAt
  by_cases h : (e.event.isModelCall && decide (e.event.revision = r)) = true <;> simp [h]

/-- The last revision is `r`, the roles in these places have answered in it, in `n` transport
calls. -/
structure Recorded (ledger : List Entry) (r : ℕ) (roles : List ℕ) (n : ℕ) : Prop where
  revision : runRevision (ledger.map Entry.event) = r
  places : places r (ledger.map Entry.event) = roles
  calls : transportCalls r ledger = n

/-- The roles that have answered in the last revision did so in their order. -/
def Ordered (ledger : List Entry) : Prop := ∃ r k n, k ≤ 3 ∧ Recorded ledger r ([1, 2, 3].take k) n

variable {ledger : List Entry} {roles : List ℕ}

theorem Recorded.ordered {r k n : ℕ} (h : Recorded ledger r roles n) (hk : k ≤ 3)
    (hroles : roles = [1, 2, 3].take k) : Ordered ledger := by
  subst hroles
  exact ⟨r, k, n, hk, h⟩

/-- An event that is no call of a model leaves what is recorded as it is. -/
theorem Recorded.quiet {r n : ℕ} (h : Recorded ledger r roles n) {e : Entry}
    (hcall : e.event.isModelCall = false) (hr : e.event.revision ≤ r) :
    Recorded (ledger ++ [e]) r roles n := by
  have hat : isCallAt r e.event = false := by simp [isCallAt, hcall]
  refine ⟨?_, ?_, ?_⟩
  · rw [map_append, map_singleton, runRevision_snoc (by rw [h.revision]; exact hr), h.revision]
  · rw [map_append, map_singleton, places_append, hat, h.places]
    exact append_nil roles
  · rw [transportCalls_append, hat, h.calls]
    exact Nat.add_zero n

theorem Ordered.quiet (h : Ordered ledger) {e : Entry} (hcall : e.event.isModelCall = false)
    (hr : e.event.revision ≤ runRevision (ledger.map Entry.event)) : Ordered (ledger ++ [e]) := by
  obtain ⟨r, k, n, hk, hrec⟩ := h
  rw [hrec.revision] at hr
  exact ⟨r, k, n, hk, hrec.quiet hcall hr⟩

theorem callEntry_isCallAt (r : ℕ) (role : Role) (e : Evidence) :
    isCallAt r (callEntry r role e).event = true := by
  simp [isCallAt, callEntry, RunEvent.isModelCall]

theorem Recorded.answer {r n : ℕ} (h : Recorded ledger r roles n) (role : Role) (e : Evidence) :
    Recorded (ledger ++ [callEntry r role e]) r (roles ++ [place role]) (n + e.calls) := by
  have hat := callEntry_isCallAt r role e
  refine ⟨?_, ?_, ?_⟩
  · have hle : (callEntry r role e).event.revision ≤ runRevision (ledger.map Entry.event) := by
      rw [h.revision]
      exact le_refl r
    rw [map_append, map_singleton, runRevision_snoc hle, h.revision]
  · rw [map_append, map_singleton, places_append, hat, h.places]
    rfl
  · rw [transportCalls_append, hat, h.calls]
    rfl

variable {r : ℕ}

theorem places_above {events : List RunEvent} (h : runRevision events < r) :
    places r events = [] := by
  unfold places
  rw [map_eq_nil_iff, filter_eq_nil_iff]
  intro e he
  have hle := le_runRevision (mem_of_mem_filter he)
  simp only [decide_eq_true_eq]
  omega

theorem transportCalls_above (h : runRevision (ledger.map Entry.event) < r) :
    transportCalls r ledger = 0 := by
  have hnil : (ledger.filter fun e => e.event.isModelCall && e.event.revision = r) = [] := by
    rw [filter_eq_nil_iff]
    intro e he
    have hle := le_runRevision (mem_map_of_mem (f := Entry.event) he)
    simp only [Bool.and_eq_true, decide_eq_true_eq, not_and]
    omega
  unfold transportCalls
  rw [hnil]
  rfl

theorem recorded_first {role : Role} {e : Evidence}
    (h : r = runRevision (ledger.map Entry.event) + 1) :
    Recorded (ledger ++ [callEntry r role e]) r [place role] e.calls := by
  have hat := callEntry_isCallAt r role e
  have hlt : runRevision (ledger.map Entry.event) < r := by omega
  refine ⟨?_, ?_, ?_⟩
  · have hone : runRevision [(callEntry r role e).event] = r := Nat.zero_max r
    rw [map_append, map_singleton, runRevision_append]
    omega
  · rw [map_append, map_singleton, places_append, hat, places_above hlt]
    rfl
  · rw [transportCalls_append, hat, transportCalls_above hlt]
    exact Nat.zero_add e.calls

theorem not_isRecorded {role : Role} {e : Evidence} {events : List RunEvent}
    (h : place role ∉ places r events) : isRecorded r role e events = false := by
  unfold isRecorded
  rw [any_eq_false]
  intro event hevent heq
  simp only [Bool.and_eq_true, decide_eq_true_eq] at heq
  refine h (mem_map.mpr ⟨event, ?_, ?_⟩)
  · rw [mem_filter, mem_filter]
    refine ⟨⟨hevent, ?_⟩, decide_eq_true heq.1⟩
    unfold RunEvent.isModelCall
    rw [heq.2]
  · unfold eventPlace
    rw [heq.2]

/-- The roles in their order are as many as the place of the last of them. -/
theorem Ordered.lastPlace (h : Ordered ledger) :
    lastPlace (ledger.map Entry.event) =
      (CallBudget.places (runRevision (ledger.map Entry.event))
        (ledger.map Entry.event)).length := by
  obtain ⟨r, k, n, hk, hrec⟩ := h
  unfold CallBudget.lastPlace
  rw [hrec.revision, hrec.places]
  interval_cases k <;> rfl

/-! ### The invariant -/

/-- What is recorded where a revision stands. -/
def Stands (c : Contract) (s : State) : Prop :=
  match s.point with
  | .proposing r => r = s.revision + 1 ∧ 0 < c.limit
  | .proposed r p => r = s.revision + 1 ∧ (s.files r).proposal = some p
  | .afterProposal r _ | .patching r => Recorded s.ledger r [1] ((s.files r).before .patcher)
  | .patched r q =>
      Recorded s.ledger r [1] ((s.files r).before .patcher) ∧ (s.files r).patch = some q
  | .building r false | .workspace r false | .afterPatch r | .candidate r | .executing r
  | .executed r | .evaluated r | .diagnosing r =>
      Recorded s.ledger r [1, 2] ((s.files r).before .critic)
  | .building r true | .workspace r true | .candidateRejected r | .diagnosed r | .gating r
  | .promoted r => r = s.revision
  | .idle | .capturing | .evaluating | .captured | .ready => True

structure Inv (c : Contract) (s : State) : Prop where
  ordered : Ordered s.ledger
  stands : Stands c s

theorem Inv.stands_at {c : Contract} {s : State} (h : Inv c s) {p : Point} (hp : s.point = p) :
    Stands c { s with point := p } := by
  rw [← hp]
  exact h.stands

theorem inv_created (c : Contract) : Inv c created where
  ordered := ⟨0, 0, 0, Nat.zero_le 3, rfl, rfl, rfl⟩
  stands := trivial

theorem transition_isModelCall (r : ℕ) (target : RunState) (reason : Option String) :
    (transition r target reason).isModelCall = false := rfl

variable {s : State}

theorem ordered_transition (h : Ordered s.ledger) (hr : r ≤ s.revision) (target : RunState)
    (reason : Option String) (point : Point) :
    Ordered (s.transitionTo r target reason point).ledger :=
  h.quiet (transition_isModelCall r target reason) hr

theorem ordered_note (h : Ordered s.ledger) (hr : r ≤ s.revision) (name : String) (point : Point) :
    Ordered (s.note r name point).ledger :=
  h.quiet rfl hr

theorem revision_transition (hr : r ≤ s.revision) (target : RunState) (reason : Option String)
    (point : Point) : (s.transitionTo r target reason point).revision = s.revision := by
  unfold State.revision State.events State.transitionTo State.append
  rw [map_append]
  exact runRevision_snoc hr

theorem revision_note (hr : r ≤ s.revision) (name : String) (point : Point) :
    (s.note r name point).revision = s.revision := by
  unfold State.revision State.events State.note State.append
  rw [map_append]
  exact runRevision_snoc hr

theorem recorded_transition {r n : ℕ} (h : Recorded s.ledger r roles n) (target : RunState)
    (reason : Option String) (point : Point) :
    Recorded (s.transitionTo r target reason point).ledger r roles n :=
  h.quiet (transition_isModelCall r target reason) (le_refl r)

variable {c : Contract}

theorem inv_idle (h : Ordered s.ledger) : Inv c (s.goto .idle) := ⟨h, trivial⟩

theorem inv_stop (h : Ordered s.ledger) (reason : String) : Inv c (s.stop reason) :=
  ⟨ordered_transition h (le_refl _) .stopped (some reason) .idle, trivial⟩

theorem inv_leaves (h : Ordered s.ledger) (hr : r ≤ s.revision) (target : RunState)
    (reason : Option String) : Inv c (s.transitionTo r target reason .idle) :=
  ⟨ordered_transition h hr target reason .idle, trivial⟩

theorem parentRevision_le (events : List RunEvent) : parentRevision events ≤ runRevision events :=
  runRevision_le fun _ he => le_runRevision (mem_of_mem_filter he)

/-! ### The budget and what is recorded -/

theorem exceeded_eq (c : Contract) (events : List RunEvent) :
    (deriveBudgetState c.budgets events).exceeded =
      (!withinTotals c events ||
        decide (c.limit ≤ ((places (runRevision events) events).length : ℤ))) := by
  unfold withinTotals deriveBudgetState Contract.limit places
  simp only [Bool.not_and, Bool.not_not, length_map]

theorem decide_go {state : RunState} {b : BudgetState}
    (h : decideLoopContinuation state b = .go) : b.exceeded = false := by
  unfold decideLoopContinuation at h
  split at h
  · cases h
  · split at h
    · cases h
    · rename_i hexceeded
      simpa using hexceeded

theorem decide_budgetExhausted_iff (state : RunState) (b : BudgetState) :
    decideLoopContinuation state b = .budgetExhausted ↔
      ¬ [RunState.manualReview, .completed, .stopped, .failed].contains state ∧
        b.exceeded = true := by
  unfold decideLoopContinuation
  split
  · rename_i hhalted
    constructor
    · intro h
      cases h
    · intro h
      exact absurd hhalted h.1
  · rename_i hhalted
    cases hexceeded : b.exceeded with
    | true => exact ⟨fun _ => ⟨hhalted, rfl⟩, fun _ => rfl⟩
    | false =>
      simp only [Bool.false_eq_true, if_false, and_false, iff_false]
      split <;> exact fun h => nomatch h

theorem inv_begin (h : Ordered s.ledger) (a : Answer) : Inv c (s.begin c a) := by
  unfold State.begin
  split
  · exact inv_idle h
  · exact inv_idle h
  · exact inv_stop h _
  · rename_i hgo
    split
    · refine ⟨h, rfl, ?_⟩
      have hexceeded := decide_go hgo
      rw [exceeded_eq, Bool.or_eq_false_iff, decide_eq_false_iff_not] at hexceeded
      omega
    · exact inv_stop h _

/-! ### Every step keeps it -/

variable (a : Answer)

theorem inv_proposing (h : Inv c s) (hp : s.point = .proposing r) : Inv c (advance c a s) := by
  have hstands := h.stands_at hp
  unfold advance
  rw [hp]
  dsimp only
  cases hfile : (s.files r).proposal with
  | some p => exact ⟨h.ordered, hstands.1, hfile⟩
  | none =>
    cases completeStructured (c.repairs "maxProposerRepairs") a.replies with
    | none => exact inv_idle h.ordered
    | some e =>
      refine ⟨h.ordered, hstands.1, ?_⟩
      change (Function.update s.files r _ r).proposal = _
      rw [Function.update_self]

theorem inv_proposed {p : Evidence × Bool} (h : Inv c s) (hp : s.point = .proposed r p) :
    Inv c (advance c a s) := by
  obtain ⟨(hr : r = s.revision + 1), hfile⟩ := h.stands_at hp
  have hlt : runRevision s.events < r := by
    unfold State.revision at hr
    omega
  have hnot : isRecorded r .proposer p.1 s.events = false := by
    apply not_isRecorded
    rw [places_above hlt]
    exact not_mem_nil
  have hrec : Recorded (s.ledger ++ [callEntry r .proposer p.1]) r [1] p.1.calls :=
    recorded_first hr
  have hbefore : (s.files r).before .patcher = p.1.calls := by
    unfold Files.before
    rw [hfile]
    rfl
  unfold advance
  rw [hp]
  dsimp only
  unfold State.record
  rw [hnot]
  refine ⟨hrec.ordered (k := 1) (by omega) rfl, ?_⟩
  change Recorded _ r [1] ((s.files r).before .patcher)
  rw [hbefore]
  exact hrec

variable {stopInstead : Bool}

theorem inv_afterProposal (h : Inv c s) (hp : s.point = .afterProposal r stopInstead) :
    Inv c (advance c a s) := by
  have hstands := h.stands_at hp
  unfold advance
  rw [hp]
  dsimp only
  split
  · exact ⟨h.ordered, hstands.revision.symm⟩
  · split
    · exact inv_stop h.ordered _
    · exact ⟨h.ordered, hstands⟩

theorem inv_patching (h : Inv c s) (hp : s.point = .patching r) : Inv c (advance c a s) := by
  have hstands := h.stands_at hp
  unfold advance
  rw [hp]
  dsimp only
  cases hfile : (s.files r).patch with
  | some q => exact ⟨h.ordered, hstands, hfile⟩
  | none =>
    cases completeStructured (c.repairs "maxProposerRepairs") a.replies with
    | none => exact inv_idle h.ordered
    | some e =>
      refine ⟨h.ordered, ?_⟩
      change Recorded s.ledger r [1] ((Function.update s.files r _ r).before .patcher) ∧
        (Function.update s.files r _ r).patch = some e
      rw [Function.update_self]
      exact ⟨hstands, rfl⟩

theorem inv_patched {q : Evidence} (h : Inv c s) (hp : s.point = .patched r q) :
    Inv c (advance c a s) := by
  obtain ⟨hrec, hfile⟩ := h.stands_at hp
  have hnot : isRecorded r .patcher q s.events = false := by
    apply not_isRecorded
    unfold State.events
    rw [hrec.places]
    decide
  have hnext := hrec.answer .patcher q
  have hbefore : (s.files r).before .critic = (s.files r).before .patcher + q.calls := by
    unfold Files.before
    rw [hfile]
    rfl
  unfold advance
  rw [hp]
  dsimp only
  unfold State.record
  rw [hnot]
  refine ⟨hnext.ordered (k := 2) (by omega) rfl, ?_⟩
  change Recorded _ r [1, 2] ((s.files r).before .critic)
  rw [hbefore]
  exact hnext

/-- A transition of a candidate keeps what the proposer and the patcher have recorded. -/
theorem inv_carry (h : Ordered s.ledger)
    (hrec : Recorded s.ledger r [1, 2] ((s.files r).before .critic)) (target : RunState)
    (point : Point) (hpoint : Stands c (s.transitionTo r target none point) =
      Recorded (s.transitionTo r target none point).ledger r [1, 2]
        ((s.files r).before .critic)) :
    Inv c (s.transitionTo r target none point) where
  ordered := ordered_transition h (le_of_eq hrec.revision.symm) target none point
  stands := by
    rw [hpoint]
    exact recorded_transition hrec target none point

theorem inv_last (h : Ordered s.ledger) (hr : r = s.revision) (target : RunState) (point : Point)
    (hpoint : Stands c (s.transitionTo r target none point) =
      (r = (s.transitionTo r target none point).revision)) :
    Inv c (s.transitionTo r target none point) where
  ordered := ordered_transition h (le_of_eq hr) target none point
  stands := by
    rw [hpoint, revision_transition (le_of_eq hr)]
    exact hr

section

variable (h : Inv c s)

include h

theorem inv_building (hp : s.point = .building r stopInstead) : Inv c (advance c a s) := by
  have hstands := h.stands_at hp
  unfold advance
  rw [hp]
  dsimp only
  have hparent := parentRevision_le s.events
  split
  · exact inv_idle h.ordered
  · split
    · exact inv_leaves h.ordered hparent _ _
    · split
      · cases stopInstead with
        | true => exact inv_last h.ordered hstands _ _ rfl
        | false => exact inv_carry h.ordered hstands _ _ rfl
      · exact inv_leaves h.ordered hparent _ _

theorem inv_workspace (hp : s.point = .workspace r stopInstead) : Inv c (advance c a s) := by
  have hstands := h.stands_at hp
  unfold advance
  rw [hp]
  cases stopInstead with
  | true => exact inv_leaves h.ordered (le_of_eq hstands) _ _
  | false => exact inv_carry h.ordered hstands _ _ rfl

theorem inv_candidate (hp : s.point = .candidate r) : Inv c (advance c a s) := by
  have hstands := h.stands_at hp
  have hlast : r = s.revision := hstands.revision.symm
  unfold advance
  rw [hp]
  dsimp only
  split
  · exact inv_carry h.ordered hstands _ _ rfl
  · split
    · exact inv_leaves h.ordered (le_of_eq hlast) _ _
    · refine ⟨ordered_note h.ordered (le_of_eq hlast) _ _, ?_⟩
      exact hlast.trans (revision_note (le_of_eq hlast) _ _).symm

theorem inv_executed (hp : s.point = .executed r) : Inv c (advance c a s) := by
  have hstands := h.stands_at hp
  unfold advance
  rw [hp]
  dsimp only
  split
  · exact inv_carry h.ordered hstands _ _ rfl
  · exact inv_leaves h.ordered (le_of_eq hstands.revision.symm) _ _

theorem inv_diagnosing (hp : s.point = .diagnosing r) : Inv c (advance c a s) := by
  have hstands := h.stands_at hp
  have hlast : r = s.revision := hstands.revision.symm
  unfold advance
  rw [hp]
  dsimp only
  split
  · split
    · refine ⟨ordered_note h.ordered (le_of_eq hlast) _ _, ?_⟩
      exact hlast.trans (revision_note (le_of_eq hlast) _ _).symm
    · rename_i e _
      have hnext := hstands.answer .critic e
      exact ⟨hnext.ordered (k := 3) (le_refl 3) rfl, hnext.revision.symm⟩
  · exact ⟨h.ordered, hlast⟩

theorem inv_gating (hp : s.point = .gating r) : Inv c (advance c a s) := by
  have hstands := h.stands_at hp
  unfold advance
  rw [hp]
  dsimp only
  split
  · exact inv_last h.ordered hstands _ _ rfl
  · exact inv_leaves h.ordered (le_of_eq hstands) _ _

theorem inv_advance : Inv c (advance c a s) := by
  have hstands := h.stands
  unfold Stands at hstands
  have hzero : (0 : ℕ) ≤ s.revision := Nat.zero_le _
  cases hp : s.point with
  | proposing r => exact inv_proposing a h hp
  | proposed r p => exact inv_proposed a h hp
  | afterProposal r stopInstead => exact inv_afterProposal a h hp
  | patching r => exact inv_patching a h hp
  | patched r q => exact inv_patched a h hp
  | building r stopInstead => exact inv_building a h hp
  | workspace r stopInstead => exact inv_workspace a h hp
  | candidate r => exact inv_candidate a h hp
  | executed r => exact inv_executed a h hp
  | diagnosing r => exact inv_diagnosing a h hp
  | gating r => exact inv_gating a h hp
  | idle =>
    unfold advance
    rw [hp]
    dsimp only
    split
    · exact ⟨ordered_transition h.ordered (le_refl _) _ _ _, trivial⟩
    · exact inv_begin h.ordered a
  | capturing =>
    unfold advance
    rw [hp]
    dsimp only
    split
    · exact ⟨ordered_transition h.ordered (le_refl _) _ _ _, trivial⟩
    · exact inv_leaves h.ordered (le_refl _) _ _
  | evaluating =>
    unfold advance
    rw [hp]
    exact ⟨ordered_note h.ordered hzero _ _, trivial⟩
  | captured =>
    unfold advance
    rw [hp]
    dsimp only
    split
    · exact ⟨ordered_transition h.ordered (le_refl _) _ _ _, trivial⟩
    · exact inv_leaves h.ordered (le_refl _) _ _
  | ready =>
    unfold advance
    rw [hp]
    exact inv_begin h.ordered a
  | afterPatch r =>
    rw [hp] at hstands
    unfold advance
    rw [hp]
    dsimp only
    split
    · exact inv_stop h.ordered _
    · exact ⟨h.ordered, hstands⟩
  | candidateRejected r =>
    rw [hp] at hstands
    unfold advance
    rw [hp]
    exact inv_leaves h.ordered (le_of_eq hstands) _ _
  | executing r | evaluated r =>
    rw [hp] at hstands
    unfold advance
    rw [hp]
    exact inv_carry h.ordered hstands _ _ rfl
  | diagnosed r =>
    rw [hp] at hstands
    unfold advance
    rw [hp]
    exact inv_last h.ordered hstands _ _ rfl
  | promoted r =>
    rw [hp] at hstands
    unfold advance
    rw [hp]
    dsimp only
    split
    · exact inv_idle h.ordered
    · exact inv_leaves h.ordered (le_of_eq hstands) _ _

end

theorem stands_note (h : Stands c s) (name : String) :
    Stands c (s.note s.revision name s.point) := by
  have hrevision : (s.note s.revision name s.point).revision = s.revision :=
    revision_note (le_refl _) name s.point
  have hquiet : ∀ r n roles, Recorded s.ledger r roles n →
      Recorded (s.note s.revision name s.point).ledger r roles n := by
    intro r n roles hrec
    exact hrec.quiet rfl (le_of_eq hrec.revision)
  unfold Stands at h ⊢
  rw [hrevision]
  obtain ⟨ledger, files, point⟩ := s
  cases point with
  | proposing r => exact h
  | proposed r p => exact h
  | patched r q => exact ⟨hquiet _ _ _ h.1, h.2⟩
  | building r stopInstead | workspace r stopInstead =>
    cases stopInstead with
    | true => exact h
    | false => exact hquiet _ _ _ h
  | afterProposal r _ | patching r | afterPatch r | candidate r | executing r | executed r
  | evaluated r | diagnosing r => exact hquiet _ _ _ h
  | candidateRejected r | diagnosed r | gating r | promoted r => exact h
  | idle | capturing | evaluating | captured | ready => trivial

theorem inv_step (action : Action) (h : Inv c s) : Inv c (step c s action) := by
  cases action with
  | call a => exact inv_advance a h
  | interrupt => exact inv_idle h.ordered
  | note name => exact ⟨ordered_note h.ordered (le_refl _) name s.point, stands_note h.stands name⟩
  | stop reason =>
    unfold step
    dsimp only
    split
    · split
      · exact h
      · exact inv_stop h.ordered reason
    · exact h
  | review approved =>
    unfold step
    dsimp only
    split
    · split
      · split
        · exact inv_last h.ordered rfl _ _ rfl
        · exact inv_leaves h.ordered (le_refl _) _ _
      · exact h
    · exact h

/-! ### One step -/

theorem stopsForBudget_stop {reason : String} (h : stopsForBudget s (s.stop reason)) :
    reason = "BUDGET_EXHAUSTED" := by
  unfold stopsForBudget State.stop State.transitionTo State.append State.events at h
  simpa [transition] using h

theorem not_stopsForBudget_goto (s : State) (point : Point) :
    ¬ stopsForBudget s (s.goto point) := by
  intro h
  have hlength := congrArg length h
  rw [length_append] at hlength
  exact absurd hlength (Nat.ne_of_lt (Nat.lt_succ_self _))

theorem begin_stops_iff (c : Contract) (a : Answer) (s : State) :
    stopsForBudget s (s.begin c a) ↔
      decideLoopContinuation (runState s.events) (deriveBudgetState c.budgets s.events) =
        .budgetExhausted := by
  unfold State.begin
  split
  · rename_i hdecide
    exact iff_of_false (not_stopsForBudget_goto s _) (by rw [hdecide]; exact fun h => nomatch h)
  · rename_i hdecide
    exact iff_of_false (not_stopsForBudget_goto s _) (by rw [hdecide]; exact fun h => nomatch h)
  · rename_i hdecide
    refine iff_of_true ?_ hdecide
    exact map_append
  · rename_i hdecide
    refine iff_of_false ?_ (by rw [hdecide]; exact fun h => nomatch h)
    split
    · exact not_stopsForBudget_goto s _
    · intro h
      exact absurd (stopsForBudget_stop h) (by decide)

theorem advance_of_starts (c : Contract) (a : Answer) (h : s.starts = true) :
    advance c a s = s.begin c a := by
  unfold State.starts at h
  unfold advance
  split at h
  · rename_i hpoint
    rw [hpoint]
  · rename_i hpoint
    rw [hpoint]
    exact if_neg (by simpa using h)
  · cases h

/-- Where a role is asked, the calls on record are those of the answers that are stored. -/
theorem asks_calls (h : Inv c s) {role : Role} (hasks : asks c s = some (role, r)) :
    transportCalls r s.ledger = (s.files r).before role := by
  have hstands := h.stands
  unfold Stands at hstands
  unfold asks at hasks
  split at hasks
  · rename_i hpoint
    rw [hpoint] at hstands
    split at hasks
    · cases hasks
      refine transportCalls_above ?_
      have hr := hstands.1
      unfold State.revision State.events at hr
      omega
    · cases hasks
  · rename_i hpoint
    rw [hpoint] at hstands
    split at hasks
    · cases hasks
      exact hstands.calls
    · cases hasks
  · rename_i hpoint
    rw [hpoint] at hstands
    split at hasks
    · cases hasks
      exact hstands.calls
    · cases hasks
  · cases hasks

theorem respected_iff_fits (s : State) (action : Action) (h : Inv c s) :
    Respected c s action ↔ Fits c s action := by
  cases action with
  | call a =>
    refine and_congr ?_ ?_
    · cases hasks : asks c s with
      | none => rfl
      | some ask =>
        rw [Option.all_some, Option.all_some, asks_calls h hasks]
    · refine forall_congr' fun hstarts => forall_congr' fun hwithin => forall_congr' fun _ => ?_
      have hplace : lastPlace s.events = (places s.revision s.events).length := h.ordered.lastPlace
      rw [advance_of_starts c a hstarts, begin_stops_iff, decide_budgetExhausted_iff, exceeded_eq,
        hwithin, not_and, hplace]
      rw [Bool.not_true, Bool.false_or, decide_eq_true_eq, not_le]
      rfl
  | _ => rfl

/-! ### Runs -/

/-- A run respects the budget of calls just if no role is asked where the answers before it took
as many transport calls as the limit, and the loop comes back to its first check only where the
role that answered last has a place below the limit. -/
theorem call_budget_iff (c : Contract) (actions : List Action) :
    Each (step c) (Respected c) created actions ↔ Each (step c) (Fits c) created actions :=
  each_iff (fun s a h => respected_iff_fits s a h) (fun _ a h _ => inv_step a h)
    (inv_created c) actions

instance (c : Contract) (s : State) (action : Action) : Decidable (Respected c s action) := by
  unfold Respected
  cases action <;> infer_instance

def ample (limit : ℤ) : Contract where
  budgets :=
    [("maxRevisions", 8), ("maxTotalPromptTokens", 100000), ("maxTotalCompletionTokens", 100000),
      ("maxTotalWallTimeMs", 3600000), ("maxModelCallsPerRevision", limit),
      ("maxCriticRepairs", 1), ("maxProposerRepairs", 1)]
  criticEnabled := true

/-- An answer that one transport call brings. -/
def atOnce (responseHash : String) : Action :=
  .call { replies := [⟨some 1, some (100, 20), true, responseHash⟩] }

/-- An answer that is repaired once. -/
def repaired (responseHash : String) : Action :=
  .call { replies :=
    [⟨some 1, some (100, 20), false, "invalid"⟩, ⟨some 1, some (100, 20), true, responseHash⟩] }

/-- From the new run to where the proposer is asked for the first revision. -/
def toProposer : List Action := replicate 5 (.call {})

/-- From there to where the critic is asked, with the answers of the proposer and the patcher. -/
def toCritic : List Action :=
  [atOnce "proposal", .call {}, .call {}, atOnce "patch"] ++ replicate 8 (.call {})

/-- With a limit of two the patcher is asked after a proposal that took two calls. With a limit of
three the second revision is stopped in front of its first call, because the three roles have
answered once each in the first. -/
theorem call_budget_missed :
    ¬ Each (step (ample 2)) (Respected (ample 2)) created
      (toProposer ++ [repaired "proposal", .call {}, .call {}] ++ [atOnce "patch"]) ∧
    ¬ Each (step (ample 3)) (Respected (ample 3)) created
      (toProposer ++ toCritic ++
        [atOnce "diagnosis", .call {}, .call { verdict := .promoted }, .call {}] ++
        [.call {}]) := by
  constructor
  · rw [each_append]
    intro h
    exact absurd h.2.1 (by decide)
  · rw [each_append]
    intro h
    exact absurd h.2.1 (by decide)

end Ds4Studio.Evolution.CallBudget
