import Ds4Studio.Lib.Run
import Ds4Studio.Wrapper.State

/-!
Requests, mode switches, freezing and thawing in any order. The mutex is held for the
short sections at both ends of an operation only; between them it works on the session
alone if no other operation has begun. Then no session is lost or mixed up.
-/

namespace Ds4Studio.Wrapper

open List Option Function

inductive Op where
  | switch (previous target : Mode)
  | freeze
  | thaw (mode : Mode)

/-- The session an operation was called on. -/
abbrev Held := Mode × List ℕ

/-- An operation under way, between two sections that hold the mutex. -/
inductive Task where
  | request (required : Mode)
  | waiting (target : Mode)
  | freezing (op : Op) (held : Held)
  | thawing (op : Op) (held : Held)
  | settling (op : Op) (ok : Bool) (held : Held)

/-- A switch that waits for a request has not begun. -/
def Task.underWay : Task → Bool
  | .waiting _ => false
  | _ => true

/-- `frozenAs` are the tokens a session of a mode was last frozen with. -/
structure System where
  wrap : Wrap
  tasks : List Task
  frozenAs : Mode → List ℕ

def System.underWay (s : System) : List Task := s.tasks.filter Task.underWay

/-- The session that is live, or that the next thaw is about. -/
def System.held (s : System) : Held :=
  match s.wrap.activeSession with
  | some session => (session.mode, session.tokens)
  | none => (s.wrap.activeMode, s.frozenAs s.wrap.activeMode)

/-- `ds4_wrapper_switch_mode` behind the wait. -/
def switchLocked (target : Mode) (w : Wrap) : Option Wrap :=
  if w.activeMode = target then none else some { w with state := .switching }

/-- The section that ends an operation. -/
def settle (op : Op) (ok : Bool) (w : Wrap) : Wrap :=
  match ok, op with
  | false, _ => { w with state := .error }
  | true, .switch _ target =>
      { w with
        activeMode := target
        serverMeta := { w.serverMeta with active := target = .server }
        agentMeta := { w.agentMeta with active := target = .agent }
        state := .ready }
  | true, _ => { w with state := .ready }

/-- What follows the freeze. -/
def afterFreeze (op : Op) (ok : Bool) (held : Held) : Task :=
  match ok, op with
  | true, .switch _ _ => .thawing op held
  | _, _ => .settling op ok held

def Op.thawTarget (op : Op) (w : Wrap) : Mode :=
  match op with
  | .switch _ target => target
  | .freeze => w.activeMode
  | .thaw mode => mode

/-- `ds4_agent_runtime_init`: the agent runtime takes the place of the agent session it is made for.
Where `agent_worker_init` fails, the session that it has created by then is not freed. -/
def initAgentRuntime (made : Except Bool Session) (w : Wrap) : Wrap :=
  match made with
  | .error created =>
      { w with
        activeSession := none
        leaked := (if created then [⟨.agent, [], false⟩] else []) ++ w.leaked }
  | .ok session =>
      { w with
        activeSession := some session
        agentRuntime := true
        agentMeta := { w.agentMeta with
          sessionExists := true
          active := true
          tokens := session.tokens.length } }

inductive Action where
  | enter (required : Mode)
  | work (required : Mode) (tokens : List ℕ) (checkpointValid : Bool)
  | initAgent (made : Except Bool (List ℕ × Bool))
  | leave (required : Mode)
  | switchWait (target : Mode)
  | switchStay (target : Mode)
  | switchBegin (target : Mode)
  | freezeBegin
  | thawBegin
  | freeze (op : Op) (out : StoreOutcome)
  | thaw (op : Op) (created loaded : Bool)
  | settle (op : Op) (ok : Bool) (held : Held)

/-- A switch goes on when it is called or woken up and no request is running. -/
def Called (s : System) (target : Mode) (rest : List Task) : Prop :=
  s.wrap.busy = false ∧
    (rest = s.tasks ∨ ∃ l r, s.tasks = l ++ .waiting target :: r ∧ rest = l ++ r)

inductive Step (cfg : Config) : System → Action → System → Prop
  | enter {s : System} {required : Mode} {w : Wrap}
      (h : enterRequest required s.wrap = .ok w) :
      Step cfg s (.enter required) { s with wrap := w, tasks := .request required :: s.tasks }
  | work {s : System} {required : Mode} {session : Session} (tokens : List ℕ)
      (checkpointValid : Bool) (htask : .request required ∈ s.tasks)
      (hsession : s.wrap.activeSession = some session)
      (hruntime : required = .agent → s.wrap.agentRuntime = true) :
      Step cfg s (.work required tokens checkpointValid)
        { s with wrap := { s.wrap with
          activeSession := some ⟨session.mode, tokens, checkpointValid⟩ } }
  | initAgent {s : System} (made : Except Bool (List ℕ × Bool))
      (htask : .request .agent ∈ s.tasks) (hruntime : s.wrap.agentRuntime = false) :
      Step cfg s (.initAgent made)
        { s with wrap := initAgentRuntime (made.map fun p => ⟨.agent, p.1, p.2⟩) s.wrap }
  | leave {s : System} {required : Mode} {l r : List Task}
      (htask : s.tasks = l ++ .request required :: r) :
      Step cfg s (.leave required) { s with wrap := leaveRequest s.wrap, tasks := l ++ r }
  | switchWait {s : System} (target : Mode) (hbusy : s.wrap.busy = true) :
      Step cfg s (.switchWait target) { s with tasks := .waiting target :: s.tasks }
  | switchStay {s : System} {target : Mode} {rest : List Task} (hcalled : Called s target rest)
      (h : switchLocked target s.wrap = none) :
      Step cfg s (.switchStay target) { s with tasks := rest }
  | switchBegin {s : System} {target : Mode} {rest : List Task} {w : Wrap}
      (hcalled : Called s target rest) (h : switchLocked target s.wrap = some w) :
      Step cfg s (.switchBegin target)
        { s with wrap := w, tasks := .freezing (.switch s.wrap.activeMode target) s.held :: rest }
  | freezeBegin {s : System} (hbusy : s.wrap.busy = false)
      (hsession : s.wrap.activeSession.isSome = true) :
      Step cfg s .freezeBegin
        { s with
          wrap := { s.wrap with state := .switching }
          tasks := .freezing .freeze s.held :: s.tasks }
  | thawBegin {s : System} (hbusy : s.wrap.busy = false)
      (hsession : s.wrap.activeSession = none) :
      Step cfg s .thawBegin
        { s with
          wrap := { s.wrap with state := .switching }
          tasks := .thawing (.thaw s.wrap.activeMode) s.held :: s.tasks }
  | freeze {s : System} {op : Op} {held : Held} {l r : List Task} (out : StoreOutcome)
      (htask : s.tasks = l ++ .freezing op held :: r) :
      Step cfg s (.freeze op out)
        { wrap := (freezeActiveSession cfg out s.wrap).1
          tasks := l ++ afterFreeze op (freezeActiveSession cfg out s.wrap).2 held :: r
          frozenAs :=
            match s.wrap.activeSession with
            | some session =>
                if (freezeActiveSession cfg out s.wrap).2 then
                  update s.frozenAs s.wrap.activeMode session.tokens
                else s.frozenAs
            | none => s.frozenAs }
  | thaw {s : System} {op : Op} {held : Held} {l r : List Task} (created loaded : Bool)
      (htask : s.tasks = l ++ .thawing op held :: r) :
      Step cfg s (.thaw op created loaded)
        { s with
          wrap := (thawSession cfg created loaded (op.thawTarget s.wrap) s.wrap).1
          tasks := l ++ .settling op
            (thawSession cfg created loaded (op.thawTarget s.wrap) s.wrap).2 held :: r }
  | settle {s : System} {op : Op} {ok : Bool} {held : Held} {l r : List Task}
      (htask : s.tasks = l ++ .settling op ok held :: r) :
      Step cfg s (.settle op ok held) { s with wrap := settle op ok s.wrap, tasks := l ++ r }

def startup (mode : Mode) (disk : String → Option (List ℕ)) : System :=
  ⟨startupSession mode disk, [], fun _ => []⟩

/-! ### What is promised -/

/-- The live session, if there is one, is the session of a mode. -/
def OwnMode (w : Wrap) (mode : Mode) : Prop :=
  ∀ session, w.activeSession = some session → session.mode = mode

/-- The session is live, or the mode is still its own and a thaw gives its tokens back. -/
def Recoverable (cfg : Config) (w : Wrap) (held : Held) : Prop :=
  (∃ session, w.activeSession = some session ∧ (session.mode, session.tokens) = held) ∨
    (w.activeSession = none ∧ w.activeMode = held.1 ∧ thawedTokens cfg w held.1 = some held.2)

/-- What holds between any two steps. -/
structure Sound (s : System) : Prop where
  live : s.wrap.leaked = []
  exclusive : s.underWay.length ≤ 1
  request : ∀ mode, .request mode ∈ s.tasks → s.wrap.activeMode = mode ∧ OwnMode s.wrap mode

/-- The mode whose switch a step answers with success. -/
def Action.switched : Action → Option Mode
  | .switchStay target => some target
  | .settle (.switch _ target) true _ => some target
  | _ => none

/-- The session that an operation which fails was called on. -/
def Action.failed : Action → Option Held
  | .settle _ false held => some held
  | _ => none

/-- The condition on a step:

* no switch, freeze or thaw goes on while one is under way,
* no switch to the active mode goes on while its session is frozen,
* the start of the agent runtime does not fail behind the creation of its session,
* no session is stored in memory that fills its context. -/
def Orderly (cfg : Config) (s : System) : Action → Prop
  | .switchStay _ => s.wrap.state ≠ .switching ∧ s.wrap.activeSession.isSome = true
  | .switchBegin _ | .freezeBegin | .thawBegin => s.wrap.state ≠ .switching
  | .initAgent made => made ≠ .error true
  | .freeze _ out => ∀ session, s.wrap.activeSession = some session → out.isStored = true →
      session.freezesToRam cfg = true → session.tokens.length < cfg.configuredCtxSize
  | _ => True

/-! ### The invariant -/

/-- The mode an operation that has succeeded leaves. -/
def Op.settledMode (op : Op) (w : Wrap) : Mode :=
  match op with
  | .switch _ target => target
  | _ => w.activeMode

/-- Where an operation under way stands. -/
def Stage (cfg : Config) (s : System) : Task → Prop
  | .freezing _ held => s.held = held ∧ OwnMode s.wrap s.wrap.activeMode
  | .thawing op held =>
      s.wrap.activeSession = none ∧ Recoverable cfg s.wrap held ∧
        op.thawTarget s.wrap = op.settledMode s.wrap
  | .settling op true _ =>
      OwnMode s.wrap (op.settledMode s.wrap) ∧
        ∀ previous target, op = .switch previous target → s.wrap.activeSession.isSome = true
  | .settling _ false held => Recoverable cfg s.wrap held ∧ OwnMode s.wrap s.wrap.activeMode
  | _ => False

/-- The flags for the operation under way. -/
inductive Phase (cfg : Config) (s : System) : List Task → Prop
  | idle (hbusy : s.wrap.busy = false) (hstate : s.wrap.state ≠ .switching)
      (hown : OwnMode s.wrap s.wrap.activeMode) : Phase cfg s []
  | request (mode : Mode) (hbusy : s.wrap.busy = true) (hstate : s.wrap.state ≠ .switching)
      (hmode : s.wrap.activeMode = mode) (hown : OwnMode s.wrap mode) : Phase cfg s [.request mode]
  | op (task : Task) (hbusy : s.wrap.busy = false) (hstate : s.wrap.state = .switching)
      (hstage : Stage cfg s task) : Phase cfg s [task]

structure Invariant (cfg : Config) (s : System) : Prop where
  leaked : s.wrap.leaked = []
  paths : ∀ mode, (s.wrap.sessionMeta mode).diskPath = ""
  /-- A session that is not live can be thawed as it was frozen. -/
  kept : ∀ mode, (∀ session, s.wrap.activeSession = some session → session.mode ≠ mode) →
    thawedTokens cfg s.wrap mode = some (s.frozenAs mode)
  /-- Before the agent runtime is there, no agent session has any tokens. -/
  fresh : s.wrap.agentRuntime = false →
    s.frozenAs .agent = [] ∧ thawedTokens cfg s.wrap .agent = some [] ∧
      ∀ session, s.wrap.activeSession = some session → session.mode = .agent → session.tokens = []
  phase : Phase cfg s s.underWay

variable {cfg : Config} {s : System} {rest : List Task}

theorem Phase.of_tasks {tasks : List Task} (h : Phase cfg s tasks) :
    Phase cfg { s with tasks := rest } tasks := by
  cases h with
  | idle hbusy hstate hown => exact .idle hbusy hstate hown
  | request mode hbusy hstate hmode hown => exact .request mode hbusy hstate hmode hown
  | op task hbusy hstate hstage => exact .op task hbusy hstate hstage

variable {l r : List Task} {task : Task}

theorem filter_middle (hl : l.filter Task.underWay = []) (hr : r.filter Task.underWay = [])
    (htask : task.underWay = true) : (l ++ task :: r).filter Task.underWay = [task] := by
  rw [filter_append, hl, filter_cons_of_pos htask, hr]
  rfl

theorem filter_ends (hl : l.filter Task.underWay = []) (hr : r.filter Task.underWay = []) :
    (l ++ r).filter Task.underWay = [] := by
  rw [filter_append, hl, hr]
  rfl

theorem Phase.length_le {tasks : List Task} (h : Phase cfg s tasks) : tasks.length ≤ 1 := by
  cases h <;> simp

theorem Invariant.only (h : Invariant cfg s) (htasks : s.tasks = l ++ task :: r)
    (htask : task.underWay = true) :
    Phase cfg s [task] ∧ l.filter Task.underWay = [] ∧ r.filter Task.underWay = [] := by
  have hfilter : s.underWay = l.filter Task.underWay ++ task :: r.filter Task.underWay := by
    simp [System.underWay, htasks, htask]
  have hlength := h.phase.length_le
  rw [hfilter, length_append, length_cons] at hlength
  have hl : l.filter Task.underWay = [] := by
    apply eq_nil_of_length_eq_zero
    omega
  have hr : r.filter Task.underWay = [] := by
    apply eq_nil_of_length_eq_zero
    omega
  have hphase := h.phase
  rw [hfilter, hl, hr] at hphase
  exact ⟨hphase, hl, hr⟩

theorem Invariant.stage (h : Invariant cfg s) (htasks : s.tasks = l ++ task :: r)
    (htask : task.underWay = true) (hop : ∀ mode, task ≠ .request mode) :
    s.wrap.busy = false ∧ s.wrap.state = .switching ∧ Stage cfg s task := by
  obtain ⟨hphase, -, -⟩ := h.only htasks htask
  cases hphase with
  | request mode => exact absurd rfl (hop mode)
  | op _ hbusy hstate hstage => exact ⟨hbusy, hstate, hstage⟩

theorem Invariant.request (h : Invariant cfg s) {mode : Mode}
    (htasks : s.tasks = l ++ .request mode :: r) :
    s.wrap.state ≠ .switching ∧ s.wrap.activeMode = mode ∧ OwnMode s.wrap mode := by
  obtain ⟨hphase, -, -⟩ := h.only htasks rfl
  cases hphase with
  | request _ _ hstate hmode hown => exact ⟨hstate, hmode, hown⟩
  | op _ _ _ hstage => exact hstage.elim

theorem Invariant.idle (h : Invariant cfg s) (hbusy : s.wrap.busy = false)
    (hstate : s.wrap.state ≠ .switching) : s.underWay = [] ∧ OwnMode s.wrap s.wrap.activeMode := by
  have hphase := h.phase
  generalize s.underWay = tasks at hphase
  cases hphase with
  | idle _ _ hown => exact ⟨rfl, hown⟩
  | request mode hbusy' =>
    rw [hbusy] at hbusy'
    cases hbusy'
  | op _ _ hstate' => exact absurd hstate' hstate

theorem Invariant.sound (h : Invariant cfg s) : Sound s where
  live := h.leaked
  exclusive := h.phase.length_le
  request := by
    intro mode hmem
    obtain ⟨l, r, htasks⟩ := append_of_mem hmem
    exact (h.request htasks).2

/-! ### One step -/

/-- The sessions and what is kept of them stay as they are. -/
structure SameSessions (cfg : Config) (s s' : System) : Prop where
  session : s'.wrap.activeSession = s.wrap.activeSession
  leaked : s'.wrap.leaked = s.wrap.leaked
  runtime : s'.wrap.agentRuntime = s.wrap.agentRuntime
  paths : ∀ mode, (s'.wrap.sessionMeta mode).diskPath = (s.wrap.sessionMeta mode).diskPath
  thawed : ∀ mode, thawedTokens cfg s'.wrap mode = thawedTokens cfg s.wrap mode
  frozenAs : s'.frozenAs = s.frozenAs

theorem sameSessions_flags (cfg : Config) (s : System) (mode : Mode) (state : WrapState)
    (busy : Bool) (tasks : List Task) :
    SameSessions cfg s
      { s with
        wrap := { s.wrap with activeMode := mode, state := state, busy := busy }
        tasks := tasks } where
  session := rfl
  leaked := rfl
  runtime := rfl
  paths := fun mode => by cases mode <;> rfl
  thawed := fun mode => thawedTokens_congr cfg (by cases mode <;> rfl) rfl
  frozenAs := rfl

theorem Invariant.of_same {s s' : System} (h : Invariant cfg s) (hsame : SameSessions cfg s s')
    (hphase : Phase cfg s' s'.underWay) : Invariant cfg s' where
  leaked := hsame.leaked.trans h.leaked
  paths := fun mode => (hsame.paths mode).trans (h.paths mode)
  kept := by
    intro mode hmode
    rw [hsame.thawed, hsame.frozenAs]
    rw [hsame.session] at hmode
    exact h.kept mode hmode
  fresh := by
    rw [hsame.runtime, hsame.frozenAs, hsame.thawed, hsame.session]
    exact h.fresh
  phase := hphase

variable {required : Mode}

theorem Invariant.enter (h : Invariant cfg s) {w : Wrap}
    (henter : enterRequest required s.wrap = .ok w) :
    Invariant cfg { s with wrap := w, tasks := .request required :: s.tasks } := by
  unfold enterRequest at henter
  split at henter
  · cases henter
  rename_i hstate
  split at henter
  · cases henter
  rename_i hmode
  split at henter
  · cases henter
  rename_i hbusy
  split at henter
  · cases henter
  obtain rfl := Except.ok.inj henter
  obtain ⟨hidle, hown⟩ := h.idle (by simpa using hbusy) hstate
  have hmode' : s.wrap.activeMode = required := not_not.mp hmode
  refine h.of_same (sameSessions_flags cfg s _ _ _ _) ?_
  have hunder : filter Task.underWay (.request required :: s.tasks) = [.request required] := by
    exact congrArg _ hidle
  rw [System.underWay, hunder]
  exact .request required rfl (by simp) hmode' (hmode' ▸ hown)

variable {session : Session}

theorem Invariant.work (h : Invariant cfg s) (tokens : List ℕ) (checkpointValid : Bool)
    (htask : .request required ∈ s.tasks) (hsession : s.wrap.activeSession = some session)
    (hruntime : required = .agent → s.wrap.agentRuntime = true) :
    Invariant cfg { s with wrap := { s.wrap with
      activeSession := some ⟨session.mode, tokens, checkpointValid⟩ } } := by
  obtain ⟨l, r, htasks⟩ := append_of_mem htask
  obtain ⟨hstate, hmode, hown⟩ := h.request htasks
  have hthawed : ∀ mode, thawedTokens cfg { s.wrap with
      activeSession := some ⟨session.mode, tokens, checkpointValid⟩ } mode =
      thawedTokens cfg s.wrap mode :=
    fun mode => thawedTokens_congr cfg (by cases mode <;> rfl) rfl
  constructor
  · exact h.leaked
  · exact h.paths
  · intro mode hother
    apply h.kept
    intro session' hsession'
    rw [hsession] at hsession'
    rw [← some.inj hsession']
    exact hother ⟨session.mode, tokens, checkpointValid⟩ rfl
  · intro hnone
    obtain ⟨hfrozen, hkept, -⟩ := h.fresh hnone
    refine ⟨hfrozen, (hthawed _).trans hkept, ?_⟩
    intro session' hsession' hagent
    -- Without the runtime the request is one of the server.
    rw [← some.inj hsession'] at hagent
    have hrequired : required = .agent := (hown session hsession).symm.trans hagent
    rw [hruntime hrequired] at hnone
    cases hnone
  · obtain ⟨hphase, hl, hr⟩ := h.only htasks rfl
    have hunder : System.underWay { s with wrap := { s.wrap with
        activeSession := some ⟨session.mode, tokens, checkpointValid⟩ } } =
        [.request required] := by
      rw [System.underWay, htasks, filter_middle hl hr rfl]
    rw [hunder]
    cases hphase with
    | request _ hbusy =>
      refine .request required hbusy hstate hmode ?_
      intro session' hsession'
      rw [← some.inj hsession']
      exact hown session hsession
    | op _ _ _ hstage => exact hstage.elim

/-- The first request to the agent frees its session, which has no tokens yet. -/
theorem Invariant.initAgent (h : Invariant cfg s) {made : Except Bool (List ℕ × Bool)}
    (htask : .request .agent ∈ s.tasks) (hruntime : s.wrap.agentRuntime = false)
    (hmade : made ≠ .error true) : Invariant cfg { s with
      wrap := initAgentRuntime (made.map fun p => ⟨.agent, p.1, p.2⟩) s.wrap } := by
  obtain ⟨l, r, htasks⟩ := append_of_mem htask
  obtain ⟨hstate, hmode, hown⟩ := h.request htasks
  obtain ⟨hphase, hl, hr⟩ := h.only htasks rfl
  obtain ⟨hfrozen, hkept, -⟩ := h.fresh hruntime
  have hserver : ∀ session, s.wrap.activeSession = some session → session.mode ≠ .server := by
    intro session hsession hmode
    rw [hown session hsession] at hmode
    cases hmode
  have hunder : s.underWay = [.request .agent] := by
    rw [System.underWay, htasks, filter_middle hl hr rfl]
  cases made with
  | error created =>
    cases created with
    | true => exact absurd rfl hmade
    | false =>
      have hthawed : ∀ mode, thawedTokens cfg { s.wrap with activeSession := none } mode =
          thawedTokens cfg s.wrap mode := thawedTokens_drop cfg s.wrap
      constructor
      · exact h.leaked
      · exact h.paths
      · intro mode _
        cases mode with
        | server => exact h.kept .server hserver
        | agent => exact hkept.trans (congrArg some hfrozen.symm)
      · intro _
        refine ⟨hfrozen, (hthawed _).trans hkept, ?_⟩
        intro session hsession
        cases hsession
      · change Phase cfg _ s.underWay
        rw [hunder]
        cases hphase with
        | request _ hbusy =>
          refine .request .agent hbusy hstate hmode ?_
          intro session hsession
          cases hsession
        | op _ _ _ hstage => exact hstage.elim
  | ok p =>
    constructor
    · exact h.leaked
    · intro mode
      cases mode
      · exact h.paths .server
      · exact h.paths .agent
    · intro mode hother
      cases mode with
      | server =>
        exact (thawedTokens_congr cfg rfl rfl).trans (h.kept .server hserver)
      | agent => exact absurd rfl (hother ⟨.agent, p.1, p.2⟩ rfl)
    · intro hnone
      cases hnone
    · change Phase cfg _ s.underWay
      rw [hunder]
      cases hphase with
      | request _ hbusy =>
        refine .request .agent hbusy hstate hmode ?_
        intro session hsession
        rw [← some.inj hsession]
      | op _ _ _ hstage => exact hstage.elim

theorem Invariant.leave (h : Invariant cfg s) (htasks : s.tasks = l ++ .request required :: r) :
    Invariant cfg { s with wrap := leaveRequest s.wrap, tasks := l ++ r } := by
  obtain ⟨hstate, hmode, hown⟩ := h.request htasks
  obtain ⟨-, hl, hr⟩ := h.only htasks rfl
  refine h.of_same (sameSessions_flags cfg s _ _ _ _) ?_
  rw [System.underWay, filter_ends hl hr]
  refine .idle rfl ?_ (hmode ▸ hown)
  simp only [leaveRequest]
  split
  · exact hstate
  · simp

variable {target : Mode}

theorem Called.underWay (h : Called s target rest) : rest.filter Task.underWay = s.underWay := by
  rcases h.2 with rfl | ⟨l, r, htasks, rfl⟩
  · rfl
  · rw [System.underWay, htasks, filter_append, filter_append,
      filter_cons_of_neg (by simp [Task.underWay])]

section

variable (h : Invariant cfg s)

include h

theorem Invariant.switchWait (target : Mode) :
    Invariant cfg { s with tasks := .waiting target :: s.tasks } := by
  refine h.of_same (sameSessions_flags cfg s _ _ _ _) ?_
  exact h.phase.of_tasks

theorem Invariant.switchStay (hcalled : Called s target rest) :
    Invariant cfg { s with tasks := rest } := by
  refine h.of_same (sameSessions_flags cfg s _ _ _ _) ?_
  rw [System.underWay, hcalled.underWay]
  exact h.phase.of_tasks

theorem Invariant.begin (htask : task.underWay = true) (hrest : rest.filter Task.underWay = [])
    (hbusy : s.wrap.busy = false) (hstage : Stage cfg { s with
      wrap := { s.wrap with state := .switching }, tasks := task :: rest } task) :
    Invariant cfg { s with
      wrap := { s.wrap with state := .switching }, tasks := task :: rest } := by
  refine h.of_same (sameSessions_flags cfg s _ _ _ _) ?_
  rw [System.underWay, filter_cons_of_pos htask, hrest]
  exact .op task hbusy rfl hstage

theorem Invariant.switchBegin {w : Wrap} (hcalled : Called s target rest)
    (hswitch : switchLocked target s.wrap = some w) (hstate : s.wrap.state ≠ .switching) :
    Invariant cfg { s with
      wrap := w, tasks := .freezing (.switch s.wrap.activeMode target) s.held :: rest } := by
  unfold switchLocked at hswitch
  split at hswitch
  · cases hswitch
  obtain rfl := some.inj hswitch
  obtain ⟨hidle, hown⟩ := h.idle hcalled.1 hstate
  exact h.begin rfl (hcalled.underWay.trans hidle) hcalled.1 ⟨rfl, hown⟩

theorem Invariant.freezeBegin (hbusy : s.wrap.busy = false) (hstate : s.wrap.state ≠ .switching) :
    Invariant cfg { s with
      wrap := { s.wrap with state := .switching }
      tasks := .freezing .freeze s.held :: s.tasks } := by
  obtain ⟨hidle, hown⟩ := h.idle hbusy hstate
  exact h.begin rfl hidle hbusy ⟨rfl, hown⟩

theorem Invariant.thawBegin (hbusy : s.wrap.busy = false) (hstate : s.wrap.state ≠ .switching)
    (hsession : s.wrap.activeSession = none) :
    Invariant cfg { s with
      wrap := { s.wrap with state := .switching }
      tasks := .thawing (.thaw s.wrap.activeMode) s.held :: s.tasks } := by
  obtain ⟨hidle, -⟩ := h.idle hbusy hstate
  refine h.begin rfl hidle hbusy ⟨hsession, Or.inr ⟨hsession, ?_⟩, rfl⟩
  have hheld : s.held = (s.wrap.activeMode, s.frozenAs s.wrap.activeMode) := by
    rw [System.held, hsession]
  have hkept : thawedTokens cfg s.wrap s.wrap.activeMode =
      some (s.frozenAs s.wrap.activeMode) := by
    apply h.kept
    intro session hlive
    rw [hsession] at hlive
    cases hlive
  rw [hheld]
  exact ⟨rfl, (thawedTokens_congr cfg (by cases s.wrap.activeMode <;> rfl) rfl).trans hkept⟩

end

variable {held : Held} {op : Op}

theorem phase_afterFreeze (hbusy : s.wrap.busy = false) (hstate : s.wrap.state = .switching)
    (hsession : s.wrap.activeSession = none) (hheld : Recoverable cfg s.wrap held) :
    Phase cfg s [afterFreeze op true held] := by
  have hown : ∀ mode, OwnMode s.wrap mode := by
    intro mode session hlive
    rw [hsession] at hlive
    cases hlive
  apply Phase.op _ hbusy hstate
  cases op with
  | switch previous target => exact ⟨hsession, hheld, rfl⟩
  | freeze => exact ⟨hown _, fun _ _ hop => by cases hop⟩
  | thaw mode => exact ⟨hown _, fun _ _ hop => by cases hop⟩

theorem afterFreeze_underWay (op : Op) (ok : Bool) (held : Held) :
    (afterFreeze op ok held).underWay = true := by
  cases ok <;> cases op <;> rfl

section

variable (h : Invariant cfg s)

include h

theorem Invariant.frozen_session (htasks : s.tasks = l ++ .freezing op held :: r)
    (hsession : s.wrap.activeSession = some session) :
    session.mode = s.wrap.activeMode ∧ held = (s.wrap.activeMode, session.tokens) ∧
      (s.wrap.agentRuntime = false → s.wrap.activeMode = .agent → session.tokens = []) := by
  obtain ⟨-, -, hheld, hown⟩ := h.stage htasks rfl (by simp)
  have hmode : session.mode = s.wrap.activeMode := hown session hsession
  refine ⟨hmode, ?_, ?_⟩
  · rw [← hheld, System.held, hsession]
    simp only [hmode]
  · intro hnone hactive
    exact (h.fresh hnone).2.2 session hsession (hmode.trans hactive)

theorem Invariant.kept_other (hsession : s.wrap.activeSession = some session) {mode : Mode}
    (hmode : session.mode ≠ mode) : thawedTokens cfg s.wrap mode = some (s.frozenAs mode) := by
  apply h.kept
  intro session' hsession'
  rw [hsession] at hsession'
  rw [← some.inj hsession']
  exact hmode

section

variable (htasks : s.tasks = l ++ .freezing op held :: r)

include htasks

theorem Invariant.freezeNothing (hsession : s.wrap.activeSession = none) :
    Invariant cfg { s with tasks := l ++ afterFreeze op true held :: r } := by
  obtain ⟨hbusy, hstate, hheld, -⟩ := h.stage htasks rfl (by simp)
  obtain ⟨-, hl, hr⟩ := h.only htasks rfl
  have hkept : thawedTokens cfg s.wrap s.wrap.activeMode =
      some (s.frozenAs s.wrap.activeMode) := by
    apply h.kept
    intro session hlive
    rw [hsession] at hlive
    cases hlive
  refine h.of_same (sameSessions_flags cfg s _ _ _ _) ?_
  rw [System.underWay, filter_middle hl hr (afterFreeze_underWay op true held)]
  refine (phase_afterFreeze hbusy hstate hsession ?_).of_tasks
  refine Or.inr ⟨hsession, ?_⟩
  rw [← hheld, System.held, hsession]
  exact ⟨rfl, hkept⟩

theorem Invariant.freezeFailed (hsession : s.wrap.activeSession = some session)
    (hne : session.tokens ≠ []) {w : Wrap} (hkeeps : Keeps s.wrap w)
    (hother : ∀ mode, mode ≠ s.wrap.activeMode →
      thawedTokens cfg w mode = thawedTokens cfg s.wrap mode)
    (hlive : w.activeSession = some session) :
    Invariant cfg { s with wrap := w, tasks := l ++ afterFreeze op false held :: r } := by
  obtain ⟨hbusy, hstate, -⟩ := h.stage htasks rfl (by simp)
  obtain ⟨-, hl, hr⟩ := h.only htasks rfl
  obtain ⟨hmode, hheld, hagent⟩ := h.frozen_session htasks hsession
  constructor
  · exact hkeeps.leaked.trans h.leaked
  · exact fun mode => (hkeeps.paths mode).trans (h.paths mode)
  · intro mode hnot
    have hnot' := hnot session hlive
    rw [hother mode (hmode ▸ hnot'.symm)]
    exact h.kept_other hsession hnot'
  · intro hnone
    have hnone' : s.wrap.agentRuntime = false := hkeeps.agentRuntime.symm.trans hnone
    obtain ⟨hfrozen, hkept, hfresh⟩ := h.fresh hnone'
    have hactive : Mode.agent ≠ s.wrap.activeMode := by
      intro hactive
      exact hne (hagent hnone' hactive.symm)
    refine ⟨hfrozen, (hother _ hactive).trans hkept, ?_⟩
    intro session' hsession'
    rw [hlive, ← hsession] at hsession'
    exact hfresh session' hsession'
  · rw [System.underWay, filter_middle hl hr (afterFreeze_underWay op false held)]
    apply Phase.op _ (hkeeps.busy.trans hbusy) (hkeeps.state.trans hstate)
    have hstage : Recoverable cfg w held ∧ OwnMode w w.activeMode := by
      constructor
      · exact Or.inl ⟨session, hlive, by rw [hheld, hmode]⟩
      · intro session' hsession'
        rw [hlive] at hsession'
        rw [← some.inj hsession', hmode, hkeeps.activeMode]
    cases op <;> exact hstage

theorem Invariant.freezeDone (hsession : s.wrap.activeSession = some session)
    {w : Wrap} (hkeeps : Keeps s.wrap w) (hother : ∀ mode, mode ≠ s.wrap.activeMode →
      thawedTokens cfg w mode = thawedTokens cfg s.wrap mode)
    (hgone : w.activeSession = none)
    (hback : thawedTokens cfg w s.wrap.activeMode = some session.tokens) :
    Invariant cfg
      { wrap := w
        tasks := l ++ afterFreeze op true held :: r
        frozenAs := update s.frozenAs s.wrap.activeMode session.tokens } := by
  obtain ⟨hbusy, hstate, -⟩ := h.stage htasks rfl (by simp)
  obtain ⟨-, hl, hr⟩ := h.only htasks rfl
  obtain ⟨hmode, hheld, hagent⟩ := h.frozen_session htasks hsession
  constructor
  · exact hkeeps.leaked.trans h.leaked
  · exact fun mode => (hkeeps.paths mode).trans (h.paths mode)
  · intro mode _
    change thawedTokens cfg w mode =
      some (update s.frozenAs s.wrap.activeMode session.tokens mode)
    by_cases hactive : mode = s.wrap.activeMode
    · rw [hactive, update_self]
      exact hback
    · rw [hother mode hactive, update_of_ne hactive]
      exact h.kept_other hsession (hmode ▸ Ne.symm hactive)
  · intro hnone
    have hnone' : s.wrap.agentRuntime = false := hkeeps.agentRuntime.symm.trans hnone
    obtain ⟨hfrozen, hkept, -⟩ := h.fresh hnone'
    have hlive : ∀ session, w.activeSession = some session → session.mode = .agent →
        session.tokens = [] := by
      intro session' hsession'
      rw [hgone] at hsession'
      cases hsession'
    by_cases hactive : Mode.agent = s.wrap.activeMode
    · have hempty := hagent hnone' hactive.symm
      rw [← hactive] at hback
      refine ⟨?_, hback.trans (congrArg some hempty), hlive⟩
      rw [hactive]
      exact (update_self ..).trans hempty
    · refine ⟨?_, (hother _ hactive).trans hkept, hlive⟩
      exact (update_of_ne hactive ..).trans hfrozen
  · rw [System.underWay, filter_middle hl hr (afterFreeze_underWay op true held)]
    apply phase_afterFreeze (hkeeps.busy.trans hbusy) (hkeeps.state.trans hstate) hgone
    refine Or.inr ⟨hgone, ?_⟩
    rw [hheld]
    exact ⟨hkeeps.activeMode, hback⟩

end

theorem Invariant.freeze (out : StoreOutcome) (htasks : s.tasks = l ++ .freezing op held :: r)
    (hroom : ∀ session, s.wrap.activeSession = some session → out.isStored = true →
      session.freezesToRam cfg = true → session.tokens.length < cfg.configuredCtxSize) :
    Invariant cfg
      { wrap := (freezeActiveSession cfg out s.wrap).1
        tasks := l ++ afterFreeze op (freezeActiveSession cfg out s.wrap).2 held :: r
        frozenAs :=
          match s.wrap.activeSession with
          | some session =>
              if (freezeActiveSession cfg out s.wrap).2 then
                update s.frozenAs s.wrap.activeMode session.tokens
              else s.frozenAs
          | none => s.frozenAs } := by
  cases hsession : s.wrap.activeSession with
  | none =>
    have hdone : freezeActiveSession cfg out s.wrap = (s.wrap, true) := by
      simp [freezeActiveSession, hsession]
    simp only [hdone]
    exact h.freezeNothing htasks hsession
  | some session =>
    obtain ⟨w, hkeeps, hother, ⟨hfail, hne, hlive⟩ | ⟨hdone, hgone, hstored, hthawed⟩⟩ :=
      freezeActiveSession_cases cfg out hsession (h.paths s.wrap.activeMode)
    · simp only [hfail, Bool.false_eq_true, if_false]
      exact h.freezeFailed htasks hsession hne hkeeps hother hlive
    · simp only [hdone, if_true]
      have hback : session.tokens.length < cfg.configuredCtxSize ∨ session.tokens = [] := by
        rcases hstored with hempty | ⟨hout, hram⟩
        · exact Or.inr hempty
        · exact Or.inl (hroom session hsession hout hram)
      exact h.freezeDone htasks hsession hkeeps hother hgone (hthawed hback)

theorem Invariant.thaw (created loaded : Bool) (htasks : s.tasks = l ++ .thawing op held :: r) :
    Invariant cfg { s with
      wrap := (thawSession cfg created loaded (op.thawTarget s.wrap) s.wrap).1
      tasks := l ++ .settling op
        (thawSession cfg created loaded (op.thawTarget s.wrap) s.wrap).2 held :: r } := by
  obtain ⟨hbusy, hstate, hsession, hheld, htarget⟩ := h.stage htasks rfl (by simp)
  obtain ⟨-, hl, hr⟩ := h.only htasks rfl
  rcases thawSession_cases cfg created loaded (op.thawTarget s.wrap) hsession with
    hfail | ⟨w, tokens, checkpointValid, hdone, hkeeps, hlive, hback, hthawed⟩
  · simp only [hfail]
    refine h.of_same (sameSessions_flags cfg s _ _ _ _) ?_
    rw [System.underWay, filter_middle hl hr rfl]
    refine .op _ hbusy hstate ⟨hheld, ?_⟩
    intro session hsession'
    rw [hsession] at hsession'
    cases hsession'
  · simp only [hdone]
    have hkept : ∀ mode, thawedTokens cfg w mode = some (s.frozenAs mode) := by
      intro mode
      rw [hthawed]
      apply h.kept
      intro session hsession'
      rw [hsession] at hsession'
      cases hsession'
    constructor
    · exact hkeeps.leaked.trans h.leaked
    · exact fun mode => (hkeeps.paths mode).trans (h.paths mode)
    · exact fun mode _ => hkept mode
    · intro hnone
      obtain ⟨hfrozen, hnothing, -⟩ := h.fresh (hkeeps.agentRuntime.symm.trans hnone)
      refine ⟨hfrozen, (hthawed _).trans hnothing, ?_⟩
      intro session hsession' hagent
      rw [hlive] at hsession'
      rw [← some.inj hsession'] at hagent ⊢
      have htarget' : op.thawTarget s.wrap = .agent := hagent
      rw [htarget', hnothing] at hback
      exact (some.inj hback).symm
    · rw [System.underWay, filter_middle hl hr rfl]
      refine .op _ (hkeeps.busy.trans hbusy) (hkeeps.state.trans hstate) ⟨?_, ?_⟩
      · intro session hsession'
        rw [hlive] at hsession'
        rw [← some.inj hsession']
        change op.thawTarget s.wrap = op.settledMode w
        rw [htarget]
        cases op <;> simp [Op.settledMode, hkeeps.activeMode]
      · intro _ _ _
        rw [hlive]
        rfl

end

theorem sameSessions_settle (cfg : Config) (s : System) (op : Op) (ok : Bool) (tasks : List Task) :
    SameSessions cfg s { s with wrap := settle op ok s.wrap, tasks := tasks } := by
  cases ok <;> cases op
  all_goals
    constructor
    case paths => intro mode; cases mode <;> rfl
    case thawed => intro mode; cases mode <;> rfl
    all_goals rfl

theorem Invariant.settle (h : Invariant cfg s) {ok : Bool}
    (htasks : s.tasks = l ++ .settling op ok held :: r) :
    Invariant cfg { s with wrap := settle op ok s.wrap, tasks := l ++ r } := by
  obtain ⟨hbusy, hstate, hstage⟩ := h.stage htasks rfl (by simp)
  obtain ⟨-, hl, hr⟩ := h.only htasks rfl
  refine h.of_same (sameSessions_settle cfg s op ok _) ?_
  rw [System.underWay, filter_ends hl hr]
  cases ok with
  | false => exact .idle hbusy (by simp [Wrapper.settle]) hstage.2
  | true => cases op <;> exact .idle hbusy (by simp [Wrapper.settle]) hstage.1

theorem Invariant.step {s s' : System} {a : Action} (h : Invariant cfg s)
    (hstep : Step cfg s a s') (horderly : Orderly cfg s a) : Invariant cfg s' := by
  cases hstep with
  | enter henter => exact h.enter henter
  | work tokens checkpointValid htask hsession hruntime =>
    exact h.work tokens checkpointValid htask hsession hruntime
  | initAgent made htask hruntime => exact h.initAgent htask hruntime horderly
  | leave htask => exact h.leave htask
  | switchWait target hbusy => exact h.switchWait target
  | switchStay hcalled hstay => exact h.switchStay hcalled
  | switchBegin hcalled hswitch => exact h.switchBegin hcalled hswitch horderly
  | freezeBegin hbusy hsession => exact h.freezeBegin hbusy horderly
  | thawBegin hbusy hsession => exact h.thawBegin hbusy horderly hsession
  | freeze out htask => exact h.freeze out htask horderly
  | thaw created loaded htask => exact h.thaw created loaded htask
  | settle htask => exact h.settle htask

theorem startup_invariant (cfg : Config) (mode : Mode) (disk : String → Option (List ℕ)) :
    Invariant cfg (startup mode disk) := by
  have hthawed : ∀ other, thawedTokens cfg (startup mode disk).wrap other = some [] := by
    intro other
    cases mode <;> cases other <;>
      simp [startup, startupSession, thawedTokens, Wrap.sessionMeta, Wrap.setMeta,
        SessionMeta.empty]
  have hlive : (startup mode disk).wrap.activeSession = some ⟨mode, [], false⟩ := by
    cases mode <;> rfl
  constructor
  · cases mode <;> rfl
  · intro other
    cases mode <;> cases other <;> rfl
  · exact fun other _ => hthawed other
  · intro _
    refine ⟨rfl, hthawed _, ?_⟩
    intro session hsession _
    rw [hlive] at hsession
    rw [← some.inj hsession]
  · have hmode : (startup mode disk).wrap.activeMode = mode := by cases mode <;> rfl
    apply Phase.idle
    · cases mode <;> rfl
    · cases mode <;> simp [startup, startupSession, Wrap.setMeta]
    · intro session hsession
      rw [hlive] at hsession
      rw [← some.inj hsession, hmode]

/-! ### Runs -/

/-- A switch is answered with success only if a session of its mode is live. -/
theorem Invariant.switched {s s' : System} {a : Action} (h : Invariant cfg s)
    (hstep : Step cfg s a s') (horderly : Orderly cfg s a) (hswitched : a.switched = some target) :
    ∃ session, s'.wrap.activeSession = some session ∧ session.mode = target := by
  cases hstep with
  | @switchStay active rest hcalled hstay =>
    obtain rfl := some.inj hswitched
    obtain ⟨hstate, hlive⟩ := horderly
    obtain ⟨session, hsession⟩ := isSome_iff_exists.mp hlive
    obtain ⟨-, hown⟩ := h.idle hcalled.1 hstate
    have hmode : s.wrap.activeMode = active := by
      unfold switchLocked at hstay
      split at hstay
      · assumption
      · cases hstay
    exact ⟨session, hsession, (hown session hsession).trans hmode⟩
  | @settle op ok held l r htask =>
    cases op with
    | switch previous target' =>
      cases ok with
      | true =>
        obtain rfl := some.inj hswitched
        obtain ⟨-, -, hown, hlive⟩ := h.stage htask rfl (by simp)
        obtain ⟨session, hsession⟩ := isSome_iff_exists.mp (hlive previous target' rfl)
        exact ⟨session, hsession, hown session hsession⟩
      | false => cases hswitched
    | freeze => cases ok <;> cases hswitched
    | thaw mode => cases ok <;> cases hswitched
  | enter | work | initAgent | leave | switchWait | switchBegin | freezeBegin | thawBegin | freeze
    | thaw => cases hswitched

theorem Invariant.failed {s s' : System} {a : Action} (h : Invariant cfg s)
    (hstep : Step cfg s a s') (hfailed : a.failed = some held) : Recoverable cfg s'.wrap held := by
  cases hstep with
  | @settle op ok held' l r htask =>
    cases ok with
    | true => cases hfailed
    | false =>
      obtain rfl := some.inj hfailed
      obtain ⟨-, -, hheld, -⟩ := h.stage htask rfl (by simp)
      have hsame := sameSessions_settle cfg s op false (l ++ r)
      rcases hheld with ⟨session, hsession, heq⟩ | ⟨hsession, hmode, hback⟩
      · exact Or.inl ⟨session, hsession, heq⟩
      · exact Or.inr ⟨hsession, hmode, (hsame.thawed _).trans hback⟩
  | enter | work | initAgent | leave | switchWait | switchStay | switchBegin | freezeBegin
    | thawBegin | freeze | thaw => cases hfailed

/-- Orderly runs of the wrapper mix no sessions and lose none. -/
theorem wrapper_keeps_sessions {cfg : Config} {mode : Mode} {disk : String → Option (List ℕ)}
    {s : System} (hrun : Run.Guarded (Step cfg) (Orderly cfg) (startup mode disk) s) :
    Sound s ∧ ∀ a s', Step cfg s a s' → Orderly cfg s a →
      (∀ target, a.switched = some target →
        ∃ session, s'.wrap.activeSession = some session ∧ session.mode = target) ∧
      (∀ held, a.failed = some held → Recoverable cfg s'.wrap held) := by
  have hinvariant : ∀ s a t, Invariant cfg s → Step cfg s a t → Orderly cfg s a →
      Invariant cfg t := fun _ _ _ hs hstep horderly => hs.step hstep horderly
  have h : Invariant cfg s := hrun.invariant hinvariant (startup_invariant cfg mode disk)
  refine ⟨h.sound, fun a s' hstep horderly => ⟨?_, ?_⟩⟩
  · exact fun target hswitched => h.switched hstep horderly hswitched
  · exact fun held hfailed => h.failed hstep hfailed

def sampleConfig : Config := ⟨8, true, 100, length⟩

/-- A switch to the agent whose session is there, and the mode not yet set. -/
def sampleSwitching : System where
  wrap :=
    { activeSession := some ⟨.agent, [], false⟩
      activeMode := .server
      state := .switching
      busy := false
      serverMeta := ⟨some [7, 8], .ram, "", true, false, 2⟩
      agentMeta := .empty
      agentRuntime := false
      disk := fun _ => none
      leaked := [] }
  tasks := [.settling (.switch .server .agent) true (.server, [7, 8])]
  frozenAs := update (fun _ => []) .server [7, 8]

theorem sampleSwitching_run :
    Run.Guarded (Step sampleConfig) (Orderly sampleConfig) (startup .server fun _ => none)
      sampleSwitching := by
  have hstart : Run.Guarded (Step sampleConfig) (Orderly sampleConfig)
      (startup .server fun _ => none) (startup .server fun _ => none) := Run.Guarded.refl _
  have hentered := hstart.snoc (Step.enter (rfl : enterRequest .server _ = .ok _)) trivial
  have hworked := hentered.snoc (Step.work [7, 8] true mem_cons_self rfl (by simp)) trivial
  have hleft := hworked.snoc (Step.leave (rfl : _ = [] ++ Task.request .server :: [])) trivial
  have hswitch := hleft.snoc (Step.switchBegin ⟨rfl, Or.inl rfl⟩
    (rfl : switchLocked .agent _ = some _)) (by simp [Orderly, leaveRequest])
  have htask : Task.freezing (.switch .server .agent) (.server, [7, 8]) :: [] =
      [] ++ Task.freezing (.switch .server .agent) (.server, [7, 8]) :: [] := rfl
  have hfrozen := hswitch.snoc (Step.freeze .stored htask) (by
    intro session hsession _ _
    rw [← some.inj hsession]
    decide)
  have htask' : Task.thawing (.switch .server .agent) (.server, [7, 8]) :: [] =
      [] ++ Task.thawing (.switch .server .agent) (.server, [7, 8]) :: [] := rfl
  have hthawed := hfrozen.snoc (Step.thaw true true htask') trivial
  exact hthawed

theorem wrapper_keeps_sessions_switch :
    Sound sampleSwitching ∧ ∃ session,
      (settle (.switch .server .agent) true sampleSwitching.wrap).activeSession = some session ∧
        session.mode = .agent := by
  obtain ⟨hsound, hsteps⟩ := wrapper_keeps_sessions sampleSwitching_run
  obtain ⟨hswitched, -⟩ := hsteps _ _
    (Step.settle (rfl : _ = [] ++ Task.settling (.switch .server .agent) true _ :: [])) trivial
  exact ⟨hsound, hswitched .agent rfl⟩

/-- A switch that is called while a freeze is under way works on the same session. -/
theorem wrapper_mixes_operations :
    ¬ ∀ (cfg : Config) (mode : Mode) (disk : String → Option (List ℕ)) (s : System),
      Run.Free (Step cfg) (startup mode disk) s →
      Sound s ∧ ∀ a s', Step cfg s a s' →
        (∀ target, a.switched = some target →
          ∃ session, s'.wrap.activeSession = some session ∧ session.mode = target) ∧
        (∀ held, a.failed = some held → Recoverable cfg s'.wrap held) := by
  intro hclaim
  have hstart : Run.Free (Step sampleConfig) (startup .server fun _ => none)
      (startup .server fun _ => none) := Run.Guarded.refl _
  have hfreezing := hstart.snoc (Step.freezeBegin rfl rfl) trivial
  have hboth := hfreezing.snoc (Step.switchBegin ⟨rfl, Or.inl rfl⟩
    (rfl : switchLocked .agent _ = some _)) trivial
  have htwo := (hclaim _ _ _ _ hboth).1.exclusive
  exact absurd htwo (by decide)

end Ds4Studio.Wrapper
