import Ds4Studio.Agno.Bridge

/-!
The Agno calls and the native agent. The guard asks the wrapper once, in front of the queue;
what it was told need not hold any more when the call leaves the queue.
-/

namespace Ds4Studio.Agno

open List

open Ds4Studio.Wrapper (Mode Op StoreOutcome System Wrap freezeActiveSession initAgentRuntime
  settle thawSession)

/-! ### The agent -/

def Op.toAgent : Op → Bool
  | .switch _ .agent => true
  | _ => false

def Task.toAgent : Wrapper.Task → Bool
  | .freezing op _ | .thawing op _ | .settling op _ _ => Op.toAgent op
  | _ => false

/-- The wrapper is in agent mode or switching to it. -/
def AgentRules (w : System) : Prop :=
  w.wrap.activeMode = .agent ∨ ∃ task ∈ w.tasks, Task.toAgent task = true

/-- A call that the guard has let through has not left the queue. -/
def Call.waits (c : Call) : Prop := c.phase = .admitted ∨ c.phase = .queued

/-- A call leaves the queue of its gate with a lease. -/
def LeavesGate (i : ℕ) (s s' : Bridge) : Prop :=
  (∃ c, s.calls i = some c ∧ c.waits) ∧ ∃ c, s'.calls i = some c ∧ c.phase = .leased

/-- The call that an action forwards or executes. -/
def Action.sends : Action → Option ℕ
  | .start i | .retry i => some i
  | _ => none

/-- The condition on a step:

* no status lets a call through while the agent is active or on its way,
* no switch to the agent begins while a call that was let through has not left the queue. -/
def StaysFresh (s : Bridge) : Action → Prop
  | .status i answer => ∀ c, s.calls i = some c → c.afterStatus answer = .admitted →
      ¬AgentRules s.wrapper
  | .wrapper (.switchBegin .agent) => ∀ i c, s.calls i = some c → ¬c.waits
  | _ => True

/-! ### How the agent comes to rule -/

variable {cfg : Wrapper.Config}

theorem activeMode_setMeta (w : Wrap) (mode : Mode) (m : Wrapper.SessionMeta) :
    (w.setMeta mode m).activeMode = w.activeMode := by
  cases mode <;> rfl

theorem freezeActiveSession_activeMode (out : StoreOutcome) (w : Wrap) :
    (freezeActiveSession cfg out w).1.activeMode = w.activeMode := by
  unfold freezeActiveSession
  split
  · rfl
  · simp only
    split
    · exact activeMode_setMeta _ _ _
    · split
      · split <;> exact activeMode_setMeta _ _ _
      · unfold Wrapper.storeDisk
        split
        · rfl
        · rename_i hstored
          split at hstored
          · split at hstored
            · cases hstored
              exact activeMode_setMeta _ _ _
            · cases hstored
          · cases hstored

theorem thawSession_activeMode (created loaded : Bool) (target : Mode) (w : Wrap) :
    (thawSession cfg created loaded target w).1.activeMode = w.activeMode := by
  unfold thawSession
  cases created with
  | false => rfl
  | true =>
    simp only [Bool.not_true, Bool.false_eq_true, if_false]
    split
    · rfl
    · split
      · rfl
      · cases loaded with
        | false => rfl
        | true => exact activeMode_setMeta _ _ _

theorem initAgentRuntime_activeMode (made : Except Bool Wrapper.Session) (w : Wrap) :
    (initAgentRuntime made w).activeMode = w.activeMode := by
  cases made <;> rfl

theorem settle_activeMode {op : Op} {ok : Bool} {w : Wrap} (hop : Op.toAgent op = false)
    (h : (settle op ok w).activeMode = .agent) : w.activeMode = .agent := by
  cases ok with
  | false => exact h
  | true =>
    cases op with
    | switch previous target =>
      cases target with
      | server => cases h
      | agent => cases hop
    | freeze => exact h
    | thaw mode => exact h

theorem afterFreeze_toAgent (op : Op) (ok : Bool) (held : Wrapper.Held) :
    Task.toAgent (Wrapper.afterFreeze op ok held) = Op.toAgent op := by
  cases ok <;> cases op <;> rfl

/-- The mode stays what it was, and no task towards the agent comes about. -/
theorem not_agentRules {w w' : System} (h : ¬AgentRules w)
    (hmode : w'.wrap.activeMode = .agent → w.wrap.activeMode = .agent)
    (htasks : ∀ task ∈ w'.tasks, Task.toAgent task = true →
      ∃ before ∈ w.tasks, Task.toAgent before = true) : ¬AgentRules w' := by
  rintro (hagent | ⟨task, htask, hto⟩)
  · exact h (.inl (hmode hagent))
  · exact h (.inr (htasks task htask hto))

theorem wrapperStep_agentRules {w w' : System} {action : Wrapper.Action}
    (hstep : Wrapper.Step cfg w action w') (h : ¬AgentRules w)
    (haction : action ≠ .switchBegin .agent) : ¬AgentRules w' := by
  have hkept : ∀ {l r : List Wrapper.Task} {task : Wrapper.Task}, w.tasks = l ++ task :: r →
      ∀ other ∈ l ++ r, Task.toAgent other = true →
        ∃ before ∈ w.tasks, Task.toAgent before = true := by
    intro l r task htasks other hother hto
    refine ⟨other, ?_, hto⟩
    rw [htasks]
    rcases mem_append.1 hother with hl | hr
    · exact mem_append_left _ hl
    · exact mem_append_right _ (mem_cons_of_mem _ hr)
  have hreplaced : ∀ {l r : List Wrapper.Task} {task next : Wrapper.Task},
      w.tasks = l ++ task :: r →
      Task.toAgent next = Task.toAgent task → ∀ other ∈ l ++ next :: r,
        Task.toAgent other = true → ∃ before ∈ w.tasks, Task.toAgent before = true := by
    intro l r task next htasks hnext other hother hto
    rcases mem_append.1 hother with hl | hr
    · exact hkept htasks other (mem_append_left _ hl) hto
    · rcases mem_cons.1 hr with rfl | hr
      · refine ⟨task, ?_, hnext ▸ hto⟩
        rw [htasks]
        exact mem_append_right _ mem_cons_self
      · exact hkept htasks other (mem_append_right _ hr) hto
  have hcalled : ∀ {target : Mode} {rest : List Wrapper.Task}, Wrapper.Called w target rest →
      ∀ other ∈ rest, Task.toAgent other = true →
        ∃ before ∈ w.tasks, Task.toAgent before = true := by
    rintro target rest ⟨-, rfl | ⟨l, r, htasks, rfl⟩⟩ other hother hto
    · exact ⟨other, hother, hto⟩
    · exact hkept htasks other hother hto
  have hnone : ∀ other ∈ w.tasks, Task.toAgent other = true →
      ∃ before ∈ w.tasks, Task.toAgent before = true :=
    fun other hother hto => ⟨other, hother, hto⟩
  have hcons : ∀ {task : Wrapper.Task}, Task.toAgent task = false → ∀ other ∈ task :: w.tasks,
      Task.toAgent other = true → ∃ before ∈ w.tasks, Task.toAgent before = true := by
    intro task htask other hother hto
    rcases mem_cons.1 hother with rfl | hother
    · rw [htask] at hto
      cases hto
    · exact ⟨other, hother, hto⟩
  cases hstep with
  | enter henter =>
    obtain ⟨-, -, rfl⟩ := Wrapper.enterRequest_ok henter
    exact not_agentRules h id (hcons rfl)
  | work tokens checkpointValid htask hsession hruntime => exact not_agentRules h id hnone
  | initAgent created htask hruntime =>
    refine not_agentRules h (fun hagent => ?_) hnone
    rwa [initAgentRuntime_activeMode] at hagent
  | leave htask => exact not_agentRules h id (hkept htask)
  | switchWait target hbusy => exact not_agentRules h id (hcons rfl)
  | switchStay hcall hlocked => exact not_agentRules h id (hcalled hcall)
  | @switchBegin target rest locked hcall hlocked =>
    have hserver : target ≠ .agent := fun htarget => haction (by rw [htarget])
    have hmode : locked.activeMode = w.wrap.activeMode := by
      unfold Wrapper.switchLocked at hlocked
      split at hlocked
      · cases hlocked
      · cases hlocked
        rfl
    refine not_agentRules h (fun hagent => hmode ▸ hagent) fun other hother hto => ?_
    rcases mem_cons.1 hother with rfl | hother
    · cases target with
      | server => cases hto
      | agent => exact absurd rfl hserver
    · exact hcalled hcall other hother hto
  | freezeBegin hbusy hsession => exact not_agentRules h id (hcons rfl)
  | thawBegin hbusy hsession => exact not_agentRules h id (hcons rfl)
  | @freeze op held l r out htask =>
    refine not_agentRules h (fun hagent => ?_) (hreplaced htask (afterFreeze_toAgent op _ held))
    rwa [freezeActiveSession_activeMode] at hagent
  | thaw created loaded htask =>
    refine not_agentRules h (fun hagent => ?_) (hreplaced htask (by rfl))
    rwa [thawSession_activeMode] at hagent
  | @settle op ok held l r htask =>
    refine not_agentRules h (fun hagent => settle_activeMode ?_ hagent) (hkept htask)
    cases hto : Op.toAgent op with
    | false => rfl
    | true =>
      refine absurd (.inr ⟨.settling op ok held, ?_, hto⟩) h
      rw [htask]
      exact mem_append_right _ mem_cons_self

/-! ### The guard in front of the queue -/

/-- The agent does not rule while a call that was let through has not left the queue. -/
def Bridge.Apart (s : Bridge) : Prop := ∀ i c, s.calls i = some c → c.waits → ¬AgentRules s.wrapper

theorem Verdict.phase_ne_queued (v : Verdict) : v.phase ≠ .queued := by
  cases v <;> simp [Verdict.phase]

theorem Call.afterStatus_ne_queued (c : Call) (answer : StatusAnswer) :
    c.afterStatus answer ≠ .queued := by
  unfold Call.afterStatus
  split <;> exact Verdict.phase_ne_queued _

variable {a : Action}

/-- A call that waits did so before the step, or a status has just let it through. -/
theorem Moves.waits {i : ℕ} {c c' : Call} (h : Moves a i c c') (hwaits : c'.waits) :
    c.waits ∨ ∃ answer, a = .status i answer ∧ c.afterStatus answer = .admitted := by
  cases h with
  | stay => exact .inl hwaits
  | disconnected ha => exact .inl hwaits
  | dropped gone hphase => exact .inl (.inr hphase)
  | @checked answer ha hphase =>
    rcases hwaits with hadmitted | hqueued
    · exact .inr ⟨answer, ha, hadmitted⟩
    · exact absurd hqueued (c.afterStatus_ne_queued answer)
  | @switched answer ha hphase =>
    rcases hwaits with hadmitted | hqueued
    · cases answer <;> cases hadmitted
    · exact absurd hqueued (Verdict.phase_ne_queued _)
  | acquired record startedAt acquired ha hphase => exact .inl (.inl hphase)
  | leased hphase => exact .inl (.inr hphase)
  | started ha hphase => rcases hwaits with hwaits | hwaits <;> cases hwaits
  | ended succeeded hphase => rcases hwaits with hwaits | hwaits <;> cases hwaits

theorem wrapper_setGate (s : Bridge) (kind : Kind) (g : Gate) :
    (s.setGate kind g).wrapper = s.wrapper := by
  cases kind <;> rfl

theorem wrapper_acquire (s : Bridge) (i : ℕ) (c : Call) : (s.acquire i c).wrapper = s.wrapper := by
  unfold Bridge.acquire
  split
  · exact wrapper_setGate _ _ _
  · split
    · rfl
    · exact wrapper_setGate _ _ _

theorem Step.wrapper_eq {s s' : Bridge} (hstep : Step cfg s a s') :
    s'.wrapper = s.wrapper ∨ ∃ action, a = .wrapper action ∧
      Wrapper.Step cfg s.wrapper action s'.wrapper := by
  cases hstep with
  | wrapper hwrapper => exact .inr ⟨_, rfl, hwrapper⟩
  | acquire => exact .inl (wrapper_acquire _ _ _)
  | waitTimeout => exact .inl (wrapper_setGate _ _ _)
  | stop => exact .inl (wrapper_setGate _ _ _)
  | finish => exact .inl (wrapper_setGate _ _ _)
  | _ => exact .inl rfl

theorem Step.apart {s s' : Bridge} (hstep : Step cfg s a s') (hs : s.Coherent) (h : s.Apart)
    (hfresh : StaysFresh s a) : s'.Apart := by
  intro i c' hcall' hwaits
  rcases hstep.moves hs hcall' with ⟨request, -, -, rfl⟩ | ⟨c, hcall, hmoves⟩
  · rcases hwaits with hwaits | hwaits <;> cases hwaits
  · rcases hstep.wrapper_eq with hsame | ⟨action, rfl, hwrapper⟩
    · rw [hsame]
      rcases hmoves.waits hwaits with hwaited | ⟨answer, rfl, hadmitted⟩
      · exact h i c hcall hwaited
      · exact hfresh c hcall hadmitted
    · have hwaited : c.waits := by
        rcases hmoves.waits hwaits with hwaited | ⟨answer, ha, -⟩
        · exact hwaited
        · cases ha
      refine wrapperStep_agentRules hwrapper (h i c hcall hwaited) ?_
      rintro rfl
      exact hfresh i c hcall hwaited

/-! ### Refused calls -/

/-- The phases in front of the gate. -/
def Phase.atGuard : Phase → Bool
  | .checking | .switching | .confirming | .refused | .admitted => true
  | _ => false

/-- The steps of a call up to the end of its check. -/
def Action.ofGuard : Action → Bool
  | .arrive _ | .status _ _ | .switchAnswer _ _ => true
  | _ => false

/-- A call in front of its gate has no session yet. -/
def Call.Unrecorded (c : Call) : Prop := c.phase.atGuard = true → c.record = none

theorem Moves.unrecorded {i : ℕ} {c c' : Call} (h : Moves a i c c') (hc : c.Unrecorded) :
    c'.Unrecorded := by
  cases h with
  | stay => exact hc
  | disconnected ha => exact hc
  | dropped gone hphase => exact fun hguard => by cases hguard
  | checked ha hphase =>
    intro _
    exact hc (by rcases hphase with hphase | hphase <;> rw [hphase] <;> rfl)
  | switched ha hphase => exact fun _ => hc (by rw [hphase]; rfl)
  | acquired record startedAt acquired ha hphase =>
    cases acquired <;> exact fun hguard => by cases hguard
  | leased hphase => exact fun hguard => by cases hguard
  | started ha hphase => exact fun hguard => by cases hguard
  | ended succeeded hphase => exact fun hguard => by cases hguard

theorem Step.ofGuard {s s' : Bridge} (hstep : Step cfg s a s') (ha : a.ofGuard = true) :
    s'.sessions = s.sessions ∧ ∀ kind, s'.gate kind = s.gate kind := by
  cases hstep with
  | arrive request =>
    refine ⟨rfl, fun kind => ?_⟩
    cases kind <;> rfl
  | status answer hcall hphase => exact ⟨rfl, gate_setPhase _ _ _⟩
  | switchAnswer answer hcall hphase => exact ⟨rfl, gate_setPhase _ _ _⟩
  | _ => cases ha

/-! ### Runs -/

structure Bridge.Sound (s : Bridge) : Prop where
  coherent : s.Coherent
  unrecorded : ∀ i c, s.calls i = some c → c.Unrecorded

theorem Step.sound {s s' : Bridge} (hstep : Step cfg s a s') (h : s.Sound) : s'.Sound := by
  refine ⟨hstep.coherent h.coherent, fun i c' hcall' => ?_⟩
  rcases hstep.moves h.coherent hcall' with ⟨request, -, -, rfl⟩ | ⟨c, hcall, hmoves⟩
  · exact fun _ => rfl
  · exact hmoves.unrecorded (h.unrecorded i c hcall)

theorem startup_sound (mode : Mode) (disk : String → Option (List ℕ)) (limits : GateLimits) :
    (startup mode disk limits).Sound :=
  ⟨startup_coherent mode disk limits, fun _ _ hcall => by cases hcall⟩

theorem startup_apart (mode : Mode) (disk : String → Option (List ℕ)) (limits : GateLimits) :
    (startup mode disk limits).Apart := fun _ _ hcall => by cases hcall

/-- A call that the guard refuses leaves no trace at the gates and in the registry. Where
what the guard was told stays so until a call has left the queue, no call is forwarded or
executed while the agent has ruled since before that. -/
theorem agent_excluded {mode : Mode} {disk : String → Option (List ℕ)} {limits : GateLimits}
    {s : Bridge} (hrun : Run.Free (Step cfg) (startup mode disk limits) s) :
    (∀ i c, s.calls i = some c → c.phase = .refused →
      c.record = none ∧ ∀ kind, i ∉ (s.gate kind).queue) ∧
    (∀ a s', Step cfg s a s' → a.ofGuard = true →
      s'.sessions = s.sessions ∧ ∀ kind, s'.gate kind = s.gate kind) ∧
    (Run.Guarded (Step cfg) StaysFresh (startup mode disk limits) s →
      ∀ i a s₁ s₂ b s₃, Step cfg s a s₁ → LeavesGate i s s₁ → AgentRules s.wrapper →
        Run.Guarded (Step cfg) (fun t _ => AgentRules t.wrapper) s₁ s₂ → AgentRules s₂.wrapper →
        Step cfg s₂ b s₃ → b.sends ≠ some i) := by
  have hsound : s.Sound :=
    hrun.invariant (fun _ _ _ h hstep _ => hstep.sound h) (startup_sound mode disk limits)
  refine ⟨fun i c hcall hphase => ⟨?_, fun kind => ?_⟩, fun a s' hstep ha => hstep.ofGuard ha, ?_⟩
  · exact hsound.unrecorded i c hcall (by rw [hphase]; rfl)
  · exact (hsound.coherent.queued kind).not_mem hcall (by rw [hphase]; decide)
  · rintro hfresh i a s₁ s₂ b s₃ - ⟨⟨c, hcall, hwaits⟩, -⟩ hrules
    have hapart : s.Coherent ∧ s.Apart := by
      refine hfresh.invariant (I := fun t => t.Coherent ∧ t.Apart) ?_
        ⟨startup_coherent mode disk limits, startup_apart mode disk limits⟩
      intro t a t' ht hstep hstays
      exact ⟨hstep.coherent ht.1, hstep.apart ht.1 ht.2 hstays⟩
    exact absurd hrules (hapart.2 i c hcall hwaits)

def sampleLimits : GateLimits := ⟨1, 8, 1, 8⟩

def sampleRequest (session run : String) : Request :=
  .tool .write ⟨Json.js session, Json.js run, []⟩

/-- One call that waits for its gate, and one whose status cannot be read. -/
theorem agent_excluded_waiting :
    ∃ s, (∃ c, s.calls 0 = some c ∧ c.waits) ∧
      (∃ c, s.calls 1 = some c ∧ c.phase = .refused ∧ c.record = none ∧
        1 ∉ (s.gate .tool).queue) ∧
      ∀ i a s₁ s₂ b s₃, Step Wrapper.sampleConfig s a s₁ → LeavesGate i s s₁ →
        AgentRules s.wrapper →
        Run.Guarded (Step Wrapper.sampleConfig) (fun t _ => AgentRules t.wrapper) s₁ s₂ →
        AgentRules s₂.wrapper → Step Wrapper.sampleConfig s₂ b s₃ → b.sends ≠ some i := by
  have hserver : ¬AgentRules (Wrapper.startup .server fun _ => none) := by
    rintro (hagent | ⟨task, htask, -⟩)
    · cases hagent
    · cases htask
  have hstart : Run.Guarded (Step Wrapper.sampleConfig) StaysFresh
      (startup .server (fun _ => none) sampleLimits)
      (startup .server (fun _ => none) sampleLimits) := Run.Guarded.refl _
  have harrived := hstart.snoc (Step.arrive (sampleRequest "s" "r")) trivial
  have hadmitted := harrived.snoc (Step.status (i := 0) (statusOf "server" "ready") rfl (.inl rfl))
    fun _ _ _ => hserver
  have harrived' := hadmitted.snoc (Step.arrive (sampleRequest "s" "r")) trivial
  have hrefused := harrived'.snoc (Step.status (i := 1) (.http 500) rfl (.inl rfl))
    fun _ _ _ => hserver
  obtain ⟨hrefusals, -, hexcluded⟩ := agent_excluded hrefused.free
  obtain ⟨hrecord, hqueue⟩ := hrefusals 1 _ rfl rfl
  exact ⟨_, ⟨_, rfl, .inl rfl⟩, ⟨_, rfl, rfl, hrecord, hqueue .tool⟩, hexcluded hrefused⟩

/-- A tool that waits behind another one while the wrapper goes over to the agent. -/
theorem agent_beside :
    ¬ ∀ (cfg : Wrapper.Config) (mode : Mode) (disk : String → Option (List ℕ)) (limits : GateLimits)
      (s : Bridge), Run.Free (Step cfg) (startup mode disk limits) s →
      ∀ i a s₁ s₂ b s₃, Step cfg s a s₁ → LeavesGate i s s₁ → AgentRules s.wrapper →
        Run.Guarded (Step cfg) (fun t _ => AgentRules t.wrapper) s₁ s₂ → AgentRules s₂.wrapper →
        Step cfg s₂ b s₃ → b.sends ≠ some i := by
  intro hclaim
  have hstart : Run.Free (Step Wrapper.sampleConfig)
      (startup .server (fun _ => none) sampleLimits)
      (startup .server (fun _ => none) sampleLimits) := Run.Guarded.refl _
  have harrived := hstart.snoc (Step.arrive (sampleRequest "s" "r")) trivial
  have hadmitted := harrived.snoc (Step.status (i := 0) (statusOf "server" "ready") rfl (.inl rfl))
    trivial
  have hleased := hadmitted.snoc (Step.acquire (i := 0) rfl rfl) trivial
  have hrunning := hleased.snoc (Step.start (i := 0) rfl rfl (by decide)) trivial
  have harrived' := hrunning.snoc (Step.arrive (sampleRequest "s" "r")) trivial
  have hadmitted' := harrived'.snoc
    (Step.status (i := 1) (statusOf "server" "ready") rfl (.inl rfl)) trivial
  have hqueued := hadmitted'.snoc (Step.acquire (i := 1) rfl rfl) trivial
  have hswitching := hqueued.snoc (Step.wrapper (Wrapper.Step.switchBegin ⟨rfl, .inl rfl⟩
    (rfl : Wrapper.switchLocked .agent _ = some _))) trivial
  have hrules : ∀ w : System, w.tasks = [.freezing (.switch .server .agent) (.server, [])] →
      AgentRules w := fun w hw => .inr ⟨_, by rw [hw]; exact mem_cons_self, rfl⟩
  exact hclaim _ _ _ _ _ hswitching 1 _ _ _ _ _ (Step.finish true (i := 0) rfl rfl)
    ⟨⟨_, rfl, .inr rfl⟩, _, rfl, rfl⟩ (hrules _ rfl) (Run.Guarded.refl _) (hrules _ rfl)
    (Step.start (i := 1) rfl rfl (by decide)) rfl

end Ds4Studio.Agno
