import Ds4Studio.Wrapper.AgentWorker
import Ds4Studio.Wrapper.Switching

/-!
Histories of one wrapper process: switches, freezes and thaws that succeed, server requests
and agent chats, one after the other. The transcript stays with the worker while its session
is frozen, freed and made again.
-/

namespace Ds4Studio.Wrapper

open Ds4Studio.Session (Payload State SyncOutcomes Target countTarget smooth)

/-! ### Histories -/

structure Process where
  wrap : Wrap
  /-- The worker of the agent runtime, once it is there. -/
  worker : Option AgentWorker

def Process.startup (mode : Mode) (disk : String → Option (List ℕ)) : Process :=
  ⟨startupSession mode disk, none⟩

/-- `ds4_wrapper_switch_mode` where nothing else is under way; `none`: it fails. -/
def switchMode (cfg : Config) (out : StoreOutcome) (created loaded : Bool) (target : Mode)
    (w : Wrap) : Option Wrap :=
  match switchLocked target w with
  | none => some w
  | some w =>
      match freezeActiveSession cfg out w with
      | (_, false) => none
      | (w, true) =>
          match thawSession cfg created loaded target w with
          | (_, false) => none
          | (w, true) => some (settle (.switch w.activeMode target) true w)

/-- The freeze endpoint. -/
def freezeEndpoint (cfg : Config) (out : StoreOutcome) (w : Wrap) : Option Wrap :=
  if w.activeSession.isNone then some w
  else
    match freezeActiveSession cfg out { w with state := .switching } with
    | (_, false) => none
    | (w, true) => some (settle .freeze true w)

/-- The thaw endpoint. -/
def thawEndpoint (cfg : Config) (created loaded : Bool) (w : Wrap) : Option Wrap :=
  if w.activeSession.isSome then some w
  else
    match thawSession cfg created loaded w.activeMode { w with state := .switching } with
    | (_, false) => none
    | (w, true) => some (settle (.thaw w.activeMode) true w)

/-- How the start of the worker goes: it is not there, with its session created or not, it has
no distributed route, or it starts at the system prompt. -/
inductive InitOutcome (Log : Type*) where
  | failed (created : Bool)
  | noRoute
  | reset (o : SyncOutcomes) (sys : List ℕ) (loaded : Option (Payload ℕ Log))

variable {Log : Type*}

section
variable (T : Target ℕ Log) (scfg : Session.Config) (cfg : Config)

/-- `agent_worker_init` up to the moment the worker is initialized; `s` is its new session. -/
def InitOutcome.worked (s : State ℕ Log) : InitOutcome Log → Except Bool (Worked Log)
  | .failed created => .error created
  | .noRoute => .ok (⟨[], .error⟩, s)
  | .reset o sys loaded => .ok (resetToSysprompt T scfg o sys loaded s)

/-- What the wrapper keeps of a session that the worker has worked on. -/
def Session.after (s : State ℕ Log) (mode : Mode) : Session :=
  ⟨mode, s.checkpoint, s.checkpointValid⟩

/-- A request has worked on the live session. -/
def Wrap.worked (w : Wrap) (session : Session) : Wrap := { w with activeSession := some session }

/-- `ds4_agent_runtime_init` -/
def Process.initAgent (p : Process) (worked : Except Bool (Worked Log)) : Process :=
  ⟨initAgentRuntime (worked.map fun q => Session.after q.2 .agent) p.wrap,
    (worked.map Prod.fst).toOption⟩

inductive ProcessAction where
  | switch (target : Mode)
  | freeze
  | thaw
  | serverRequest
  | enterAgent
  | initAgent
  | startChat
  | work (action : WorkerAction)
  | leaveAgent

/-- A request of the agent is under way. -/
def Process.InAgent (p : Process) : Prop := p.wrap.busy = true ∧ p.wrap.activeMode = .agent

inductive ProcessStep : Process → ProcessAction → Process → Prop
  | switch {p : Process} {w : Wrap} {target : Mode} (out : StoreOutcome) (created loaded : Bool)
      (hbusy : p.wrap.busy = false)
      (h : switchMode cfg out created loaded target p.wrap = some w) :
      ProcessStep p (.switch target) { p with wrap := w }
  | freeze {p : Process} {w : Wrap} (out : StoreOutcome) (hbusy : p.wrap.busy = false)
      (h : freezeEndpoint cfg out p.wrap = some w) : ProcessStep p .freeze { p with wrap := w }
  | thaw {p : Process} {w : Wrap} (created loaded : Bool) (hbusy : p.wrap.busy = false)
      (h : thawEndpoint cfg created loaded p.wrap = some w) :
      ProcessStep p .thaw { p with wrap := w }
  | serverRequest {p : Process} {w : Wrap} {session : Session} (tokens : List ℕ)
      (checkpointValid : Bool) (h : enterRequest .server p.wrap = .ok w)
      (hsession : w.activeSession = some session) :
      ProcessStep p .serverRequest
        { p with wrap := leaveRequest (w.worked ⟨session.mode, tokens, checkpointValid⟩) }
  | enterAgent {p : Process} {w : Wrap} (h : enterRequest .agent p.wrap = .ok w) :
      ProcessStep p .enterAgent { p with wrap := w }
  | initAgent {p : Process} (outcome : InitOutcome Log) (s : State ℕ Log)
      (hagent : p.InAgent) (hworker : p.worker = none) (hs : s.checkpoint = []) :
      ProcessStep p .initAgent (p.initAgent (outcome.worked T scfg s))
  | startChat {p : Process} {worker : AgentWorker} {session : Session} (hagent : p.InAgent)
      (hworker : p.worker = some worker) (hsession : p.wrap.activeSession = some session)
      (hstatus : worker.status = .idle) :
      ProcessStep p .startChat { p with worker := some { worker with status := .running } }
  | work {p : Process} {worker : AgentWorker} {session : Session} {s : State ℕ Log}
      {action : WorkerAction} {q : Worked Log} (hagent : p.InAgent)
      (hworker : p.worker = some worker) (hsession : p.wrap.activeSession = some session)
      (hs : session = Session.after s session.mode)
      (hstep : WorkerStep T scfg (worker, s) action q) :
      ProcessStep p (.work action)
        ⟨p.wrap.worked (Session.after q.2 session.mode), some q.1⟩
  | leaveAgent {p : Process} (hagent : p.InAgent)
      (hstatus : ∀ worker, p.worker = some worker →
        worker.status = .idle ∨ worker.status = .error) :
      ProcessStep p .leaveAgent { p with wrap := leaveRequest p.wrap }

end

/-- The mode whose session an action works on. -/
def ProcessAction.worksOn : ProcessAction → Option Mode
  | .serverRequest => some .server
  | .initAgent | .work _ => some .agent
  | _ => none

/-! ### What is held of a session -/

/-- The tokens of the session of a mode: of the live one, or of the one that a thaw makes. -/
def Holds (cfg : Config) (w : Wrap) (mode : Mode) (tokens : List ℕ) : Prop :=
  (∃ session, w.activeSession = some session ∧ session.mode = mode ∧ session.tokens = tokens) ∨
    ((∀ session, w.activeSession = some session → session.mode ≠ mode) ∧
      thawedTokens cfg w mode = some tokens)

variable {cfg : Config} {tokens : List ℕ} {w w' : Wrap} {session : Session} {out : StoreOutcome}

theorem thawedTokens_freeze (hsession : w.activeSession = some session)
    (hpath : (w.sessionMeta w.activeMode).diskPath = "")
    (h : freezeActiveSession cfg out w = (w', true))
    (ht : thawedTokens cfg w' w.activeMode = some tokens) : tokens = session.tokens := by
  unfold freezeActiveSession at h
  simp only [hsession] at h
  split at h
  · rename_i hempty
    obtain rfl := (Prod.mk.inj h).1
    rw [thawedTokens_drop] at ht
    simp only [thawedTokens, sessionMeta_setMeta_self, true_or, if_true, Option.some.injEq] at ht
    rw [hempty, ht]
  · split at h
    · split at h
      · cases (Prod.mk.inj h).2
      · obtain rfl := (Prod.mk.inj h).1
        rw [thawedTokens_drop] at ht
        simp only [thawedTokens, sessionMeta_setMeta_self, reduceCtorEq, or_self, if_false,
          if_true, Option.filter_eq_some_iff, Bool.true_eq_false] at ht
        exact (Option.some.inj ht.1).symm
    · have hnone : storeDisk w (w.sessionMeta w.activeMode).diskPath session out = none := by
        unfold storeDisk
        cases out <;> simp [hpath]
      rw [hnone] at h
      cases (Prod.mk.inj h).2

variable {mode : Mode} {w : Wrap}

theorem Holds.unique {tokens tokens' : List ℕ} (h : Holds cfg w mode tokens)
    (h' : Holds cfg w mode tokens') : tokens' = tokens := by
  rcases h with ⟨session, hlive, hmode, rfl⟩ | ⟨hother, hthawed⟩
  · rcases h' with ⟨session', hlive', -, rfl⟩ | ⟨hother', -⟩
    · rw [hlive] at hlive'
      rw [Option.some.inj hlive']
    · exact absurd hmode (hother' session hlive)
  · rcases h' with ⟨session', hlive', hmode', -⟩ | ⟨-, hthawed'⟩
    · exact absurd hmode' (hother session' hlive')
    · rw [hthawed] at hthawed'
      exact (Option.some.inj hthawed').symm

theorem Holds.of_live (h : w.activeSession = some session) :
    Holds cfg w session.mode session.tokens :=
  .inl ⟨session, h, rfl, rfl⟩

theorem holds_congr (hsession : w'.activeSession = w.activeSession)
    (hthawed : thawedTokens cfg w' mode = thawedTokens cfg w mode) :
    Holds cfg w' mode tokens ↔ Holds cfg w mode tokens := by
  unfold Holds
  rw [hsession, hthawed]

/-- Nothing is held that was not held before. -/
structure Preserves (cfg : Config) (w w' : Wrap) : Prop where
  busy : w'.busy = w.busy
  paths : ∀ mode, (w'.sessionMeta mode).diskPath = (w.sessionMeta mode).diskPath
  held : ∀ mode tokens, Holds cfg w' mode tokens → Holds cfg w mode tokens

theorem Preserves.rfl (w : Wrap) : Preserves cfg w w :=
  ⟨Eq.refl _, fun _ => Eq.refl _, fun _ _ h => h⟩

theorem Preserves.trans {w₁ w₂ w₃ : Wrap} (h : Preserves cfg w₁ w₂) (h' : Preserves cfg w₂ w₃) :
    Preserves cfg w₁ w₃ where
  busy := h'.busy.trans h.busy
  paths := fun mode => (h'.paths mode).trans (h.paths mode)
  held := fun mode tokens hheld => h.held mode tokens (h'.held mode tokens hheld)

theorem preserves_settle (cfg : Config) (op : Op) (w : Wrap) :
    Preserves cfg w (settle op true w) := by
  cases op
  all_goals
    constructor
    case busy => exact Eq.refl _
    case paths =>
      intro mode
      cases mode <;> exact Eq.refl _
    case held =>
      intro mode _ h
      refine (holds_congr ?_ ?_).1 h
      · exact Eq.refl _
      · cases mode <;> exact Eq.refl _

theorem preserves_flags (cfg : Config) (w : Wrap) (state : WrapState) :
    Preserves cfg w { w with state := state } := by
  constructor
  case busy => exact Eq.refl _
  case paths =>
    intro mode
    cases mode <;> exact Eq.refl _
  case held =>
    intro mode _ h
    refine (holds_congr ?_ ?_).1 h
    · exact Eq.refl _
    · cases mode <;> exact Eq.refl _

theorem preserves_freeze (hpath : (w.sessionMeta w.activeMode).diskPath = "")
    (hown : OwnMode w w.activeMode) (h : freezeActiveSession cfg out w = (w', true)) :
    Preserves cfg w w' ∧ w'.activeSession = none ∧ w'.activeMode = w.activeMode := by
  cases hsession : w.activeSession with
  | none =>
    unfold freezeActiveSession at h
    simp only [hsession] at h
    obtain rfl := (Prod.mk.inj h).1
    exact ⟨Preserves.rfl _, hsession, Eq.refl _⟩
  | some session =>
    obtain ⟨frozen, hkeeps, hothers, hcases⟩ := freezeActiveSession_cases cfg out hsession hpath
    rcases hcases with ⟨hfails, -⟩ | ⟨hfreezes, hnone, -⟩
    · rw [hfails] at h
      cases (Prod.mk.inj h).2
    · obtain rfl : frozen = w' := (Prod.mk.inj (hfreezes.symm.trans h)).1
      refine ⟨⟨hkeeps.busy, hkeeps.paths, ?_⟩, hnone, hkeeps.activeMode⟩
      intro mode tokens hheld
      rcases hheld with ⟨live, hlive, -⟩ | ⟨-, hthawed⟩
      · rw [hnone] at hlive
        cases hlive
      · by_cases hmode : mode = w.activeMode
        · subst hmode
          have hfrozen := thawedTokens_freeze hsession hpath h hthawed
          exact .inl ⟨session, hsession, hown session hsession, hfrozen.symm⟩
        · refine .inr ⟨?_, ?_⟩
          · intro live hlive hlives
            exact hmode (hlives.symm.trans (hown live hlive))
          · rw [← hothers mode hmode]
            exact hthawed

theorem preserves_thaw {created loaded : Bool} {target : Mode} (hnone : w.activeSession = none)
    (h : thawSession cfg created loaded target w = (w', true)) :
    Preserves cfg w w' ∧ OwnMode w' target ∧ w'.activeMode = w.activeMode := by
  rcases thawSession_cases cfg created loaded target hnone with hfails |
    ⟨thawed, kept, checkpointValid, hthaws, hkeeps, hlive, htokens, hsame⟩
  · rw [hfails] at h
    cases (Prod.mk.inj h).2
  · obtain rfl : thawed = w' := (Prod.mk.inj (hthaws.symm.trans h)).1
    refine ⟨⟨hkeeps.busy, hkeeps.paths, ?_⟩, ?_, hkeeps.activeMode⟩
    · intro mode tokens hheld
      have hnothing : ∀ session, w.activeSession = some session → session.mode ≠ mode := by
        intro session hsession
        rw [hnone] at hsession
        cases hsession
      refine .inr ⟨hnothing, ?_⟩
      rcases hheld with ⟨session, hsession, hmode, rfl⟩ | ⟨-, hthawed⟩
      · rw [hlive] at hsession
        obtain rfl := Option.some.inj hsession
        rw [← hmode]
        exact htokens
      · rw [← hsame mode]
        exact hthawed
    · intro session hsession
      rw [hlive] at hsession
      rw [← Option.some.inj hsession]

theorem preserves_switchMode {created loaded : Bool} {target : Mode}
    (hpaths : ∀ mode, (w.sessionMeta mode).diskPath = "") (hown : OwnMode w w.activeMode)
    (h : switchMode cfg out created loaded target w = some w') :
    Preserves cfg w w' ∧ OwnMode w' w'.activeMode := by
  unfold switchMode switchLocked at h
  split at h
  · obtain rfl := Option.some.inj h
    exact ⟨Preserves.rfl _, hown⟩
  · rename_i locked hlocked
    split at hlocked
    · cases hlocked
    · obtain rfl := Option.some.inj hlocked
      split at h
      · cases h
      · rename_i frozen hfreeze
        have hpath := ((preserves_flags cfg w .switching).paths w.activeMode).trans (hpaths _)
        obtain ⟨hfrozen, hnone, -⟩ := preserves_freeze hpath hown hfreeze
        split at h
        · cases h
        · rename_i thawed hthaw
          obtain ⟨hthawed, htarget, -⟩ := preserves_thaw hnone hthaw
          obtain rfl := Option.some.inj h
          refine ⟨?_, htarget⟩
          exact (((preserves_flags cfg w .switching).trans hfrozen).trans hthawed).trans
            (preserves_settle cfg _ thawed)

theorem preserves_freezeEndpoint (hpaths : ∀ mode, (w.sessionMeta mode).diskPath = "")
    (hown : OwnMode w w.activeMode) (h : freezeEndpoint cfg out w = some w') :
    Preserves cfg w w' ∧ OwnMode w' w'.activeMode := by
  unfold freezeEndpoint at h
  split at h
  · obtain rfl := Option.some.inj h
    exact ⟨Preserves.rfl _, hown⟩
  · split at h
    · cases h
    · rename_i frozen hfreeze
      have hpath := ((preserves_flags cfg w .switching).paths w.activeMode).trans (hpaths _)
      obtain ⟨hfrozen, hnone, -⟩ := preserves_freeze hpath hown hfreeze
      obtain rfl := Option.some.inj h
      refine ⟨((preserves_flags cfg w .switching).trans hfrozen).trans
        (preserves_settle cfg _ frozen), ?_⟩
      intro session hsession
      rw [show frozen.activeSession = some session from hsession] at hnone
      cases hnone

theorem preserves_thawEndpoint {created loaded : Bool} (hown : OwnMode w w.activeMode)
    (h : thawEndpoint cfg created loaded w = some w') :
    Preserves cfg w w' ∧ OwnMode w' w'.activeMode := by
  unfold thawEndpoint at h
  split at h
  · obtain rfl := Option.some.inj h
    exact ⟨Preserves.rfl _, hown⟩
  · rename_i hfrozen
    have hnone : ({ w with state := .switching } : Wrap).activeSession = none := by
      simpa using hfrozen
    split at h
    · cases h
    · rename_i thawed hthaw
      obtain ⟨hthawed, htarget, hmode⟩ := preserves_thaw hnone hthaw
      obtain rfl := Option.some.inj h
      refine ⟨((preserves_flags cfg w .switching).trans hthawed).trans
        (preserves_settle cfg _ thawed), ?_⟩
      change OwnMode thawed thawed.activeMode
      rw [hmode]
      exact htarget

/-! ### Sessions and transcripts over a history -/

/-- The wrapper between two steps: no files are kept, and the live session is the one of
the active mode. -/
structure Wrap.Tidy (w : Wrap) : Prop where
  paths : ∀ mode, (w.sessionMeta mode).diskPath = ""
  own : OwnMode w w.activeMode

/-- The session of the agent, live or kept, holds a front part of the transcript. While the
worker generates it is live and holds the whole transcript. -/
structure Agrees (cfg : Config) (p : Process) (worker : AgentWorker) : Prop where
  front : ∀ tokens, Holds cfg p.wrap .agent tokens → tokens <+: worker.transcript
  generating : worker.status = .generating → ∃ session, p.wrap.activeSession = some session ∧
    session.tokens = worker.transcript ∧ session.checkpointValid = true
  underWay : worker.status = .running ∨ worker.status = .generating → p.InAgent

structure Process.Invariant (cfg : Config) (p : Process) : Prop where
  tidy : p.wrap.Tidy
  agrees : ∀ worker, p.worker = some worker → Agrees cfg p worker

theorem holds_worked (hown : OwnMode w session.mode)
    (h : Holds cfg (w.worked session) mode tokens) :
    (mode = session.mode ∧ tokens = session.tokens) ∨
      (mode ≠ session.mode ∧ Holds cfg w mode tokens) := by
  rcases h with ⟨live, hlive, hmode, htokens⟩ | ⟨hother, hthawed⟩
  · obtain rfl := Option.some.inj hlive
    exact .inl ⟨hmode.symm, htokens.symm⟩
  · have hne := hother session rfl
    refine .inr ⟨hne.symm, .inr ⟨?_, ?_⟩⟩
    · intro live hlive
      rw [hown live hlive]
      exact hne
    · have hsame : thawedTokens cfg (w.worked session) mode = thawedTokens cfg w mode :=
        thawedTokens_congr cfg (by cases mode <;> rfl) rfl
      exact hthawed

theorem holds_leaveRequest : Holds cfg (leaveRequest w) mode tokens ↔ Holds cfg w mode tokens := by
  apply holds_congr
  · rfl
  · cases mode <;> rfl

theorem holds_enterRequest :
    Holds cfg { w with busy := true, state := .busy } mode tokens ↔ Holds cfg w mode tokens := by
  apply holds_congr
  · rfl
  · cases mode <;> rfl

/-- What is held of the mode of the server stays as it is when the runtime is made. -/
theorem holds_initAgent {made : Except Bool Session} (hown : OwnMode w .agent)
    (hmade : ∀ session, made = .ok session → session.mode = .agent)
    (h : Holds cfg (initAgentRuntime made w) .server tokens) : Holds cfg w .server tokens := by
  have hnot : ∀ session, w.activeSession = some session → session.mode ≠ .server := by
    intro session hsession
    rw [hown session hsession]
    decide
  cases made with
  | error =>
    rcases h with ⟨session, hsession, -⟩ | ⟨-, hthawed⟩
    · cases hsession
    · exact .inr ⟨hnot, hthawed⟩
  | ok =>
    rcases h with ⟨session, hsession, hmode, -⟩ | ⟨-, hthawed⟩
    · obtain rfl := Option.some.inj hsession
      rw [hmade _ rfl] at hmode
      cases hmode
    · exact .inr ⟨hnot, hthawed⟩

variable {T : Target ℕ Log} {scfg : Session.Config} {p p' : Process} {a : ProcessAction}

variable {worker : AgentWorker}

theorem Agrees.of_held (h : Agrees cfg p worker) (hbusy : p.wrap.busy = false)
    (hheld : ∀ tokens, Holds cfg w .agent tokens → Holds cfg p.wrap .agent tokens) :
    Agrees cfg { p with wrap := w } worker := by
  have hstill : ∀ status, worker.status = status →
      ¬(status = .running ∨ status = .generating) := by
    intro status hstatus hunderWay
    have hagent := (h.underWay (hstatus ▸ hunderWay)).1
    rw [hbusy] at hagent
    cases hagent
  refine ⟨fun tokens ht => h.front tokens (hheld tokens ht), ?_, ?_⟩
  · exact fun hgenerating => absurd (.inr rfl) (hstill _ hgenerating)
  · exact fun hunderWay => absurd hunderWay (hstill _ rfl)

theorem Agrees.of_follows (hlive : p.wrap.activeSession = some session)
    (hmode : session.mode = .agent) (hagent : p.InAgent)
    (h : Follows worker session.tokens session.checkpointValid) : Agrees cfg p worker := by
  refine ⟨?_, ?_, fun _ => hagent⟩
  · intro tokens hheld
    have hlives : Holds cfg p.wrap .agent session.tokens := by
      rw [← hmode]
      exact .of_live hlive
    rw [hlives.unique hheld]
    exact h.front
  · intro hgenerating
    obtain ⟨htokens, hvalid⟩ := h.generating hgenerating
    exact ⟨session, hlive, htokens, hvalid⟩

theorem Agrees.follows (h : Agrees cfg p worker) (hlive : p.wrap.activeSession = some session)
    (hmode : session.mode = .agent) : Follows worker session.tokens session.checkpointValid := by
  constructor
  case front =>
    apply h.front
    rw [← hmode]
    exact .of_live hlive
  case generating =>
    intro hgenerating
    obtain ⟨live, hsame, htokens, hvalid⟩ := h.generating hgenerating
    rw [hlive] at hsame
    obtain rfl := Option.some.inj hsame
    exact ⟨htokens, hvalid⟩

theorem InitOutcome.follows {outcome : InitOutcome Log} {s : State ℕ Log}
    (hs : s.checkpoint = []) {q : Worked Log} (h : outcome.worked T scfg s = .ok q) :
    Follows q.1 q.2.checkpoint q.2.checkpointValid := by
  cases outcome with
  | failed => cases h
  | noRoute =>
    cases h
    rw [hs]
    exact ⟨ List.nil_prefix, fun hgenerating => by cases hgenerating⟩
  | reset o sys loaded =>
    cases h
    exact follows_resetToSysprompt o sys loaded hs

section

variable (hstep : ProcessStep T scfg cfg p a p')

include hstep

/-- The session of a mode that a step does not work on stays what it was. -/
theorem ProcessStep.held (htidy : p.wrap.Tidy) (hmode : a.worksOn ≠ some mode)
    (h : Holds cfg p'.wrap mode tokens) : Holds cfg p.wrap mode tokens := by
  cases hstep with
  | switch out created loaded hbusy hswitch =>
    exact (preserves_switchMode htidy.paths htidy.own hswitch).1.held mode tokens h
  | freeze out hbusy hfreeze =>
    exact (preserves_freezeEndpoint htidy.paths htidy.own hfreeze).1.held mode tokens h
  | thaw created loaded hbusy hthaw =>
    exact (preserves_thawEndpoint htidy.own hthaw).1.held mode tokens h
  | serverRequest read checkpointValid henter hsession =>
    obtain ⟨hserver, -, rfl⟩ := enterRequest_ok henter
    have hlives := htidy.own _ hsession
    rcases holds_worked (by rw [hlives]; exact htidy.own) (holds_leaveRequest.1 h) with
      ⟨hsame, -⟩ | ⟨-, hheld⟩
    · rw [hsame, hlives, hserver] at hmode
      exact absurd rfl hmode
    · exact holds_enterRequest.1 hheld
  | enterAgent henter =>
    obtain ⟨-, -, rfl⟩ := enterRequest_ok henter
    exact holds_enterRequest.1 h
  | initAgent outcome s hagent =>
    cases mode with
    | agent => exact absurd rfl hmode
    | server =>
      refine holds_initAgent ?_ ?_ h
      · rw [← hagent.2]
        exact htidy.own
      · intro session hsession
        cases hworked : outcome.worked T scfg s with
        | error => rw [hworked] at hsession; cases hsession
        | ok q => rw [hworked] at hsession; cases hsession; rfl
  | startChat => exact h
  | work hagent hworker hsession hs hwork =>
    have hlives := htidy.own _ hsession
    rcases holds_worked (by rw [hlives]; exact htidy.own) h with
      ⟨hsame, -⟩ | ⟨-, hheld⟩
    · rw [hsame, hlives, hagent.2] at hmode
      exact absurd rfl hmode
    · exact hheld
  | leaveAgent => exact holds_leaveRequest.1 h

theorem ProcessStep.tidy (htidy : p.wrap.Tidy) : p'.wrap.Tidy := by
  obtain ⟨hpaths, hown⟩ := htidy
  cases hstep with
  | switch out created loaded hbusy hswitch =>
    obtain ⟨hpreserves, hown'⟩ := preserves_switchMode hpaths hown hswitch
    exact ⟨fun mode => (hpreserves.paths mode).trans (hpaths mode), hown'⟩
  | freeze out hbusy hfreeze =>
    obtain ⟨hpreserves, hown'⟩ := preserves_freezeEndpoint hpaths hown hfreeze
    exact ⟨fun mode => (hpreserves.paths mode).trans (hpaths mode), hown'⟩
  | thaw created loaded hbusy hthaw =>
    obtain ⟨hpreserves, hown'⟩ := preserves_thawEndpoint hown hthaw
    exact ⟨fun mode => (hpreserves.paths mode).trans (hpaths mode), hown'⟩
  | serverRequest read checkpointValid henter hsession =>
    obtain ⟨-, -, rfl⟩ := enterRequest_ok henter
    refine ⟨fun mode => ?_, fun live hlive => ?_⟩
    · rw [← hpaths mode]
      cases mode <;> rfl
    · rw [← Option.some.inj hlive]
      have hlives := hown _ hsession
      exact hlives
  | enterAgent henter =>
    obtain ⟨-, -, rfl⟩ := enterRequest_ok henter
    refine ⟨fun mode => ?_, hown⟩
    rw [← hpaths mode]
    cases mode <;> rfl
  | initAgent outcome s hagent =>
    cases outcome.worked T scfg s with
    | error =>
      refine ⟨fun mode => ?_, fun live hlive => by cases hlive⟩
      rw [← hpaths mode]
      cases mode <;> rfl
    | ok q =>
      refine ⟨fun mode => ?_, fun live hlive => ?_⟩
      · rw [← hpaths mode]
        cases mode <;> rfl
      · rw [← Option.some.inj hlive]
        exact hagent.2.symm
  | startChat => exact ⟨hpaths, hown⟩
  | work hagent hworker hsession hs hwork =>
    refine ⟨fun mode => ?_, fun live hlive => ?_⟩
    · rw [← hpaths mode]
      cases mode <;> rfl
    · rw [← Option.some.inj hlive]
      have hlives := hown _ hsession
      exact hlives
  | leaveAgent =>
    refine ⟨fun mode => ?_, hown⟩
    rw [← hpaths mode]
    cases mode <;> rfl

theorem ProcessStep.agrees (h : p.Invariant cfg) (hworker : p'.worker = some worker) :
    Agrees cfg p' worker := by
  have hheld : a.worksOn ≠ some .agent → ∀ tokens, Holds cfg p'.wrap .agent tokens →
      Holds cfg p.wrap .agent tokens := fun hmode _ => hstep.held h.tidy hmode
  cases hstep with
  | switch out created loaded hbusy | freeze out hbusy | thaw created loaded hbusy =>
    exact (h.agrees worker hworker).of_held hbusy (hheld (by simp [ProcessAction.worksOn]))
  | serverRequest read checkpointValid henter | enterAgent henter =>
    exact (h.agrees worker hworker).of_held (enterRequest_ok henter).2.1
      (hheld (by simp [ProcessAction.worksOn]))
  | initAgent outcome s hagent hnone hs =>
    cases hq : outcome.worked T scfg s with
    | error => rw [hq] at hworker; cases hworker
    | ok q =>
      rw [hq] at hworker
      cases hworker
      exact .of_follows rfl rfl hagent (outcome.follows hs hq)
  | startChat hagent hbefore hsession hstatus =>
    cases hworker
    have hagrees := h.agrees _ hbefore
    exact ⟨hagrees.front, (by intro hgenerating; cases hgenerating), fun _ => hagent⟩
  | work hagent hbefore hsession hs hwork =>
    cases hworker
    have hmode := (h.tidy.own _ hsession).trans hagent.2
    have hfollows := (h.agrees _ hbefore).follows hsession hmode
    rw [hs] at hfollows
    exact .of_follows rfl hmode hagent (hwork.follows hfollows)
  | leaveAgent hagent hstatus =>
    have hagrees := h.agrees worker hworker
    have hidle := hstatus worker hworker
    refine ⟨fun tokens ht => hagrees.front tokens (holds_leaveRequest.1 ht), ?_, ?_⟩
    · intro hgenerating
      rw [hgenerating] at hidle
      rcases hidle with hidle | hidle <;> cases hidle
    · intro hunderWay
      rcases hidle with hidle | hidle <;> rw [hidle] at hunderWay <;>
        rcases hunderWay with hunderWay | hunderWay <;> cases hunderWay

theorem ProcessStep.invariant (h : p.Invariant cfg) : p'.Invariant cfg :=
  ⟨hstep.tidy h.tidy, fun _ hworker => hstep.agrees h hworker⟩

end

theorem startup_processInvariant (cfg : Config) (mode : Mode) (disk : String → Option (List ℕ)) :
    (Process.startup mode disk).Invariant cfg := by
  refine ⟨⟨fun other => ?_, fun session hsession => ?_⟩, fun _ hworker => by cases hworker⟩
  · cases mode <;> cases other <;> rfl
  · cases mode <;> cases hsession <;> rfl

/-- What is held of a mode does not change while nothing works on its session. -/
theorem held_run (h : p.Invariant cfg)
    (hrun : Run.Guarded (ProcessStep T scfg cfg) (fun _ a => a.worksOn ≠ some mode) p p')
    (hheld : Holds cfg p'.wrap mode tokens) : Holds cfg p.wrap mode tokens := by
  have hkept : p'.Invariant cfg ∧
      ∀ tokens, Holds cfg p'.wrap mode tokens → Holds cfg p.wrap mode tokens := by
    refine hrun.invariant (I := fun q => q.Invariant cfg ∧
      ∀ tokens, Holds cfg q.wrap mode tokens → Holds cfg p.wrap mode tokens) ?_ ⟨h, fun _ ht => ht⟩
    intro q a q' hq hstep hmode
    exact ⟨hstep.invariant hq.1, fun tokens ht => hq.2 tokens (hstep.held hq.1.tidy hmode ht)⟩
  exact hkept.2 tokens hheld

/-- Between the worker's operations the session of the agent holds a front part of the
transcript, and the whole of it while a chat generates. A session that is live again behind
freezes, thaws, switches and the requests of the other mode has the tokens it had. -/
theorem transcript_and_sessions (T : Target ℕ Log) (scfg : Session.Config) (cfg : Config)
    {start : Mode} {disk : String → Option (List ℕ)} {p : Process}
    (hrun : Run.Free (ProcessStep T scfg cfg) (Process.startup start disk) p) :
    (∀ worker session, p.worker = some worker → p.wrap.activeMode = .agent →
      p.wrap.activeSession = some session →
        session.mode = .agent ∧ session.tokens <+: worker.transcript ∧
          (worker.status = .generating →
            session.tokens = worker.transcript ∧ session.checkpointValid = true)) ∧
    ∀ (mode : Mode) (p' : Process) (session session' : Session),
      Run.Guarded (ProcessStep T scfg cfg) (fun _ a => a.worksOn ≠ some mode) p p' →
      p.wrap.activeSession = some session → session.mode = mode →
      p'.wrap.activeSession = some session' → session'.mode = mode →
        session'.tokens = session.tokens := by
  have hinvariant : p.Invariant cfg :=
    hrun.invariant (fun _ _ _ h hstep _ => hstep.invariant h)
      (startup_processInvariant cfg start disk)
  constructor
  · intro worker session hworker hmode hsession
    have hagent := (hinvariant.tidy.own session hsession).trans hmode
    have hfollows := (hinvariant.agrees worker hworker).follows hsession hagent
    exact ⟨hagent, hfollows.front, hfollows.generating⟩
  · rintro mode p' session session' hrun' hsession rfl hsession' hmode'
    have hheld : Holds cfg p'.wrap session.mode session'.tokens := by
      rw [← hmode']
      exact .of_live hsession'
    exact (Holds.of_live hsession).unique (held_run hinvariant hrun' hheld)

def chatConfig : Session.Config := ⟨true, 8, 4, 4, 4, fun _ => false, false⟩

/-- A chat is over: the end of its turn is in the transcript only. -/
def chatted : Process where
  wrap :=
    { activeSession := some ⟨.agent, [1, 2, 3], true⟩
      activeMode := .agent
      state := .ready
      busy := false
      serverMeta := .empty
      agentMeta := ⟨none, .none, "", true, true, 1⟩
      agentRuntime := true
      disk := fun _ => none
      leaked := [] }
  worker := some ⟨[1, 2, 3, 0], .idle⟩

theorem chatted_run :
    Run.Free (ProcessStep countTarget chatConfig sampleConfig)
      (Process.startup .agent fun _ => none) chatted := by
  have hstart : Run.Free (ProcessStep countTarget chatConfig sampleConfig)
      (Process.startup .agent fun _ => none) (Process.startup .agent fun _ => none) :=
    Run.Guarded.refl _
  have hentered := hstart.snoc (.enterAgent (rfl : enterRequest .agent _ = .ok _)) trivial
  have hmade := hentered.snoc (.initAgent (.reset smooth [1] none) ⟨[], false, none, none, none⟩
    ⟨rfl, rfl⟩ rfl rfl) trivial
  have hstarted := hmade.snoc (.startChat ⟨rfl, rfl⟩ rfl rfl rfl) trivial
  have hasked := hstarted.snoc (.work (s := ⟨[1], true, some [1], some 1, none⟩) ⟨rfl, rfl⟩
    rfl rfl rfl (.append [2] rfl)) trivial
  have hread := hasked.snoc (.work (s := ⟨[1], true, some [1], some 1, none⟩) ⟨rfl, rfl⟩
    rfl rfl rfl (.beginRound smooth rfl)) trivial
  have hanswered := hread.snoc (.work (s := ⟨[1, 2], true, some [1, 2], some 2, none⟩)
    ⟨rfl, rfl⟩ rfl rfl rfl (.accept true none 3 rfl)) trivial
  have hround := hanswered.snoc (.work (s := ⟨[1, 2, 3], true, some [1, 2, 3], some 3, none⟩)
    ⟨rfl, rfl⟩ rfl rfl rfl (.endRound rfl)) trivial
  have heos := hround.snoc (.work (s := ⟨[1, 2, 3], true, some [1, 2, 3], some 3, none⟩)
    ⟨rfl, rfl⟩ rfl rfl rfl (.append [0] rfl)) trivial
  have hended := heos.snoc (.work (s := ⟨[1, 2, 3], true, some [1, 2, 3], some 3, none⟩)
    ⟨rfl, rfl⟩ rfl rfl rfl (.endTurn rfl (.inl (rfl : _ = WorkerStatus.idle)))) trivial
  have hleft := hended.snoc (.leaveAgent ⟨rfl, rfl⟩ (by
    intro worker hworker
    cases hworker
    exact .inl rfl)) trivial
  exact hleft

theorem transcript_and_sessions_switched :
    [1, 2, 3] <+: [1, 2, 3, 0] ∧ ∃ (p : Process) (session : Session),
      Run.Guarded (ProcessStep countTarget chatConfig sampleConfig)
        (fun _ a => a.worksOn ≠ some .agent) chatted p ∧
      p.wrap.activeSession = some session ∧ session.tokens = [1, 2, 3] := by
  obtain ⟨hfront, hkept⟩ := transcript_and_sessions _ _ _ chatted_run
  refine ⟨(hfront _ _ rfl rfl rfl).2.1, ?_⟩
  have hstart : Run.Guarded (ProcessStep countTarget chatConfig sampleConfig)
      (fun _ a => a.worksOn ≠ some .agent) chatted chatted := Run.Guarded.refl _
  have haway := hstart.snoc (.switch .stored true true rfl
    (rfl : switchMode sampleConfig .stored true true .server _ = some _)) (by decide)
  have hback := haway.snoc (.switch .stored true true rfl
    (rfl : switchMode sampleConfig .stored true true .agent _ = some _)) (by decide)
  have htokens := hkept .agent _ _ _ hback rfl rfl rfl rfl
  exact ⟨_, _, hback, rfl, htokens⟩

/-- The end of a turn is not read in before the next one. -/
theorem transcript_ahead :
    ¬ ∀ (T : Target ℕ ℕ) (scfg : Session.Config) (cfg : Config) (start : Mode)
      (disk : String → Option (List ℕ)) (p p' : Process) (worker : AgentWorker)
      (session : Session),
      Run.Free (ProcessStep T scfg cfg) (Process.startup start disk) p →
      ProcessStep T scfg cfg p .startChat p' → p.worker = some worker →
      p.wrap.activeSession = some session → session.tokens = worker.transcript := by
  intro hclaim
  have hentered := chatted_run.snoc (.enterAgent (rfl : enterRequest .agent _ = .ok _)) trivial
  have hsame := hclaim _ _ _ _ _ _ _ _ _ hentered (.startChat ⟨rfl, rfl⟩ rfl rfl rfl) rfl rfl
  exact absurd hsame (by decide)

end Ds4Studio.Wrapper
