import Ds4Studio.Web.SageTracker
import Ds4Studio.Lib.Run

/-!
The turn of the agent and the tracker of the frontend, given the same calls and the same results.
They differ in the number of repairs that they allow and in how they read the spelling of a phase.
-/

namespace Ds4Studio.Agent

open Bytes Option
open Web (SageTurnTracker normalizeSagePhase)

/-- The phase that the agent reads; a C string has no zero byte. -/
def nativePhase (phase : Option String) : SagePhase := sagePhaseNormalize (phase.map str)

structure Machines where
  native : SageTurn
  tracker : SageTurnTracker
  /-- the phases of the calls that have been admitted and have no result yet -/
  running : List (Option String)

inductive MachineAction where
  | request (phase : Option String)
  | result (phase : Option String) (isError : Bool) (flags : SageFlags)
      (artifactKinds : List String) (artifactCount : ℕ)

namespace Machines

def nativeAdmits (s : Machines) (phase : Option String) : Bool :=
  (s.native.beforeCall (nativePhase phase)).isSome

def trackerAdmits (s : Machines) (phase : Option String) : Bool :=
  (s.tracker.recordCall (normalizeSagePhase phase)).isSome

def request (s : Machines) (phase : Option String) : Machines where
  native := (s.native.beforeCall (nativePhase phase)).getD s.native
  tracker := (s.tracker.recordCall (normalizeSagePhase phase)).getD s.tracker
  running := if s.nativeAdmits phase || s.trackerAdmits phase then phase :: s.running else s.running

def result (s : Machines) (phase : Option String) (isError : Bool) (flags : SageFlags)
    (artifactKinds : List String) (artifactCount : ℕ) : Machines where
  native := s.native.afterResult (nativePhase phase) isError flags
  tracker := s.tracker.recordResult (normalizeSagePhase phase) isError flags artifactKinds
    artifactCount
  running := s.running.erase phase

end Machines

inductive MachineStep : Machines → MachineAction → Machines → Prop
  | request (s : Machines) (phase : Option String) :
      MachineStep s (.request phase) (s.request phase)
  | result (s : Machines) {phase : Option String} (hrunning : phase ∈ s.running) (isError : Bool)
      (flags : SageFlags) (artifactKinds : List String) (artifactCount : ℕ) :
      MachineStep s (.result phase isError flags artifactKinds artifactCount)
        (s.result phase isError flags artifactKinds artifactCount)

/-- What can be seen of the two machines is the same. -/
structure Machines.Agree (s : Machines) : Prop where
  failed : s.native.state = .failed ↔ s.tracker.state = .failed
  ready : s.native.state = .ready ↔ s.tracker.state = .ready
  attempt : s.native.attempt = s.tracker.attempt
  final : s.native.canFinalize = s.tracker.canFinalize

/-- Both machines take the action in the same way. -/
def Machines.Alike (s : Machines) : MachineAction → Machines → Prop
  | .request phase, t => s.nativeAdmits phase = s.trackerAdmits phase ∧ t.Agree
  | .result .., t => t.Agree

/-- The condition on a step:

* a call is no third repair that the agent has budget for,
* a phase that the two read differently is one for which neither has room,
* the result of a repair is no error once there have been two. -/
def Machines.Mirrored (s : Machines) : MachineAction → Prop
  | .request phase =>
      if nativePhase phase = normalizeSagePhase phase then
        ¬(nativePhase phase = .repair ∧ 2 ≤ s.native.repairCount ∧
          (s.native.state = .computed ∨ s.native.state = .repairing))
      else
        ¬((s.native.state = .idle ∨ s.native.state = .prepared) ∧ s.native.executeCount = 0) ∧
          s.tracker.canRun (normalizeSagePhase phase) = false
  | .result phase isError _ _ _ =>
      ¬(isError = true ∧ nativePhase phase = .repair ∧ 2 ≤ s.native.repairCount)

/-! ### The simulation -/

/-- A tracker whose task needs no plots, in front of the first call. -/
def Started (t : SageTurnTracker) : Prop :=
  t.requiresPlots = false ∧
    (t = .new ∨ ∃ runId taskType requiresPlots, t = .begin_ runId taskType requiresPlots)

/-- The states are the same, but for the time in front of the first result. -/
def SameState (s t : SageState) : Prop :=
  (s = t ∨ (s = .idle ∨ s = .prepared) ∧ (t = .idle ∨ t = .prepared)) ∧
    s ≠ .validated ∧ s ≠ .plotted

theorem SameState.reach {s t r : SageState} (h : SameState s t) (hidle : r ≠ .idle)
    (hprepared : r ≠ .prepared) : s = r ↔ t = r := by
  obtain ⟨rfl | ⟨hs, ht⟩, -, -⟩ := h
  · rfl
  · constructor
    · rintro rfl
      rcases hs with rfl | rfl <;> contradiction
    · rintro rfl
      rcases ht with rfl | rfl <;> contradiction

theorem SameState.early {s t : SageState} (h : SameState s t) :
    (s = .idle ∨ s = .prepared) ↔ (t = .idle ∨ t = .prepared) := by
  obtain ⟨rfl | ⟨hs, ht⟩, -, -⟩ := h
  · rfl
  · exact ⟨fun _ => ht, fun _ => hs⟩

structure Machines.Related (s : Machines) : Prop where
  state : SameState s.native.state s.tracker.state
  execute : s.native.executeCount = s.tracker.executeCount
  repair : s.native.repairCount = s.tracker.repairCount
  repairs : s.native.repairCount ≤ 2
  validation : s.native.validationCount = s.tracker.validationCount
  plots : s.tracker.requiresPlots = false
  authoritative : s.native.authoritative = s.tracker.authoritative
  passed : s.native.validationPassed = decide (s.tracker.validationPassed = some true)
  publishable : s.native.publishable = s.tracker.publishable
  reportReady : s.native.reportReady = s.tracker.reportReady
  finalMarkdownReady : s.native.finalMarkdownReady = s.tracker.finalMarkdownReady
  running : ∀ phase ∈ s.running, nativePhase phase = normalizeSagePhase phase ∧
    nativePhase phase ≠ .prepare ∧ nativePhase phase ≠ .plot

variable {s : Machines}

theorem Machines.Related.agree (h : s.Related) : s.Agree := by
  have hready := h.state.reach (r := .ready) (by decide) (by decide)
  refine ⟨h.state.reach (by decide) (by decide), hready, ?_, ?_⟩
  · unfold SageTurn.attempt SageTurnTracker.attempt
    rw [h.execute, h.repair]
  · unfold SageTurn.canFinalize SageTurnTracker.canFinalize SageTurnTracker.accepted
      SageTurnTracker.requiredPlotsReady
    rw [h.plots, h.authoritative, h.passed, h.publishable, h.reportReady, h.finalMarkdownReady]
    simp [hready, Bool.and_assoc]

variable (t : SageTurnTracker)

theorem canRun_iff (phase : SagePhase) :
    t.canRun phase = true ↔ match phase with
      | .compute => (t.state = .idle ∨ t.state = .prepared) ∧ t.executeCount < 1
      | .repair => (t.state = .computed ∨ t.state = .repairing) ∧ t.repairCount < 2
      | .validate => t.state = .computed ∧ t.validationCount < 1
      | .plot => (t.state = .validated ∨ t.state = .plotted) ∧ t.plotCount < 2
      | .prepare => False := by
  unfold SageTurnTracker.canRun Web.sagePhaseBudget
  cases hstate : t.state <;> cases phase <;> simp

theorem beforeCall_iff (s : SageTurn) (phase : SagePhase) :
    (s.beforeCall phase).isSome = true ↔ match phase with
      | .compute => (s.state = .idle ∨ s.state = .prepared) ∧ s.executeCount < 1
      | .repair => (s.state = .computed ∨ s.state = .repairing) ∧ s.repairCount < 5
      | .validate => s.state = .computed ∧ s.validationCount < 1
      | .plot => (s.state = .validated ∨ s.state = .plotted) ∧ s.plotCount < 3
      | .prepare => False := by
  unfold SageTurn.beforeCall
  cases phase <;> simp

/-- A call of a phase that both read alike is admitted by both or by neither, unless it is a third
repair. -/
theorem Machines.Related.admits_iff (h : s.Related) (phase : SagePhase) :
    ((s.native.beforeCall phase).isSome = s.tracker.canRun phase) ↔
      ¬(phase = .repair ∧ 2 ≤ s.native.repairCount ∧
        (s.native.state = .computed ∨ s.native.state = .repairing)) := by
  have hcomputed := h.state.reach (r := .computed) (by decide) (by decide)
  have hrepairing := h.state.reach (r := .repairing) (by decide) (by decide)
  have hvalidated := h.state.reach (r := .validated) (by decide) (by decide)
  have hplotted := h.state.reach (r := .plotted) (by decide) (by decide)
  rw [Bool.eq_iff_iff, beforeCall_iff, canRun_iff]
  cases phase with
  | prepare => simp
  | compute => simp [h.state.early, h.execute]
  | validate => simp [hcomputed, h.validation]
  | plot => simp [h.state.2.1, h.state.2.2, ← hvalidated, ← hplotted]
  | repair =>
    have hbound := h.repairs
    rw [← hcomputed, ← hrepairing, ← h.repair]
    by_cases hroom : s.native.repairCount < 2
    · simp [hroom, show s.native.repairCount < 5 by omega]
    · simp [hroom, show s.native.repairCount < 5 by omega, show 2 ≤ s.native.repairCount by omega]

theorem recordCall_isSome (phase : SagePhase) : (t.recordCall phase).isSome = t.canRun phase := by
  unfold SageTurnTracker.recordCall
  cases t.canRun phase <;> cases phase <;> rfl

theorem Machines.Related.admitted (h : s.Related) {phase : SagePhase} {native : SageTurn}
    {tracker : SageTurnTracker} (hnative : s.native.beforeCall phase = some native)
    (htracker : s.tracker.recordCall phase = some tracker) :
    phase ≠ .prepare ∧ phase ≠ .plot ∧ Machines.Related ⟨native, tracker, s.running⟩ := by
  have hopen := (beforeCall_iff s.native phase).mp (by rw [hnative]; rfl)
  have hroom := (canRun_iff s.tracker phase).mp (by rw [← recordCall_isSome, htracker]; rfl)
  have hrun : s.tracker.canRun phase = true := (canRun_iff s.tracker phase).mpr hroom
  obtain ⟨-, hvalidated, hplotted⟩ := h.state
  cases phase with
  | prepare => exact hopen.elim
  | plot => exact absurd hopen.1 (by simp [hvalidated, hplotted])
  | compute =>
    simp only [SageTurn.beforeCall, if_pos hopen, some.injEq] at hnative
    simp only [SageTurnTracker.recordCall, if_pos hrun, some.injEq] at htracker
    subst hnative htracker
    exact ⟨by decide, by decide,
      { h with
        state := ⟨.inr ⟨.inr rfl, hroom.1⟩, nofun, nofun⟩
        execute := congrArg (· + 1) h.execute }⟩
  | repair =>
    simp only [SageTurn.beforeCall, if_pos hopen, some.injEq] at hnative
    simp only [SageTurnTracker.recordCall, if_pos hrun, some.injEq] at htracker
    subst hnative htracker
    have hrepair := h.repair
    exact ⟨by decide, by decide,
      { h with
        state := ⟨.inl rfl, nofun, nofun⟩
        repair := congrArg (· + 1) h.repair
        repairs := by
          show s.native.repairCount + 1 ≤ 2
          omega }⟩
  | validate =>
    simp only [SageTurn.beforeCall, if_pos hopen, some.injEq] at hnative
    simp only [SageTurnTracker.recordCall, if_pos hrun, some.injEq] at htracker
    subst hnative htracker
    exact ⟨by decide, by decide, { h with validation := congrArg (· + 1) h.validation }⟩

variable {phase : Option String}

theorem nativePhase_eq_compute (h : nativePhase phase ≠ normalizeSagePhase phase) :
    nativePhase phase = .compute := by
  have hnot : ∀ name : String,
      nativePhase (some name) = normalizeSagePhase (some name) → phase.map str ≠ some (str name) := by
    rintro name hsame hname
    obtain ⟨q, rfl, hq⟩ := map_eq_some_iff.mp hname
    exact h (str_injective hq ▸ hsame)
  unfold nativePhase sagePhaseNormalize
  rw [if_neg (hnot "prepare" (by decide)), if_neg (hnot "repair" (by decide)),
    if_neg (hnot "validate" (by decide)), if_neg (hnot "plot" (by decide))]

/-- Both machines answer a request alike if and only if it meets the condition. -/
theorem Machines.Related.admits (h : s.Related) (phase : Option String) :
    s.nativeAdmits phase = s.trackerAdmits phase ↔ s.Mirrored (.request phase) := by
  have htracker : s.trackerAdmits phase = s.tracker.canRun (normalizeSagePhase phase) :=
    recordCall_isSome _ _
  unfold Machines.Mirrored
  simp only
  split
  case isTrue hsame =>
    rw [htracker, ← hsame]
    exact h.admits_iff _
  case isFalse hdiffer =>
    have hcompute := nativePhase_eq_compute hdiffer
    have hnative : s.nativeAdmits phase = true ↔
        (s.native.state = .idle ∨ s.native.state = .prepared) ∧ s.native.executeCount = 0 := by
      unfold Machines.nativeAdmits
      rw [hcompute, beforeCall_iff, Nat.lt_one_iff]
    rw [← hnative, htracker, Bool.not_eq_true]
    refine ⟨fun heq => ?_, fun ⟨hclosed, hroom⟩ => hclosed.trans hroom.symm⟩
    rw [hcompute] at hdiffer
    generalize normalizeSagePhase phase = read at heq hdiffer ⊢
    cases hroom : s.tracker.canRun read with
    | false => exact ⟨heq.trans hroom, rfl⟩
    | true =>
      -- the tracker has no room for anything but a computation in front of the first result
      have hearly := h.state.early.mp (hnative.mp (heq.trans hroom)).1
      have hphase := (canRun_iff s.tracker read).mp hroom
      cases read <;> rcases hearly with hstate | hstate <;> simp [hstate] at hphase hdiffer

theorem Machines.Related.request (h : s.Related) (hmirrored : s.Mirrored (.request phase)) :
    (s.request phase).Related := by
  have halike := (h.admits phase).mpr hmirrored
  unfold Machines.request
  cases hadmits : s.nativeAdmits phase with
  | false =>
    have hrefused := halike.symm.trans hadmits
    unfold Machines.nativeAdmits at hadmits
    unfold Machines.trackerAdmits at hrefused
    rw [isSome_eq_false_iff, isNone_iff_eq_none] at hadmits hrefused
    simpa [hadmits, hrefused, Machines.trackerAdmits] using h
  | true =>
    obtain ⟨native, hnative⟩ := isSome_iff_exists.mp hadmits
    obtain ⟨tracker, htracker⟩ := isSome_iff_exists.mp (halike.symm.trans hadmits)
    have hsame : nativePhase phase = normalizeSagePhase phase := by
      by_contra hdiffer
      unfold Machines.Mirrored at hmirrored
      simp only [if_neg hdiffer] at hmirrored
      have hroom := recordCall_isSome s.tracker (normalizeSagePhase phase)
      rw [htracker, hmirrored.2] at hroom
      cases hroom
    obtain ⟨hprepare, hplot, hrelated⟩ := h.admitted hnative (hsame ▸ htracker)
    rw [hnative, htracker]
    refine { hrelated with running := ?_ }
    intro other hother
    simp only [Bool.true_or, if_true, List.mem_cons] at hother
    rcases hother with rfl | hother
    · exact ⟨hsame, hprepare, hplot⟩
    · exact h.running other hother

theorem setFlags_accepted (flags : SageFlags) : (t.setFlags flags).accepted = flags.all := by
  unfold SageTurnTracker.accepted SageTurnTracker.setFlags SageFlags.all
  simp

theorem Machines.Related.result (h : s.Related) (hrunning : phase ∈ s.running) {isError : Bool}
    {flags : SageFlags} {artifactKinds : List String} {artifactCount : ℕ}
    (hmirrored : s.Mirrored (.result phase isError flags artifactKinds artifactCount)) :
    (s.result phase isError flags artifactKinds artifactCount).Related := by
  obtain ⟨hsame, hprepare, hplot⟩ := h.running phase hrunning
  have hkept : ∀ other ∈ s.running.erase phase, nativePhase other = normalizeSagePhase other ∧
      nativePhase other ≠ .prepare ∧ nativePhase other ≠ .plot :=
    fun other hother => h.running other (List.mem_of_mem_erase hother)
  have hcount := h.repair
  simp only [Machines.Mirrored] at hmirrored
  unfold Machines.result
  rw [← hsame]
  generalize nativePhase phase = read at hprepare hplot hmirrored ⊢
  unfold SageTurn.afterResult SageTurnTracker.recordResult Web.sagePhaseBudget
  cases read with
  | prepare => contradiction
  | plot => contradiction
  | compute =>
    cases isError <;> exact { h with state := ⟨.inl rfl, nofun, nofun⟩, running := hkept }
  | repair =>
    cases isError with
    | false => exact { h with state := ⟨.inl rfl, nofun, nofun⟩, running := hkept }
    | true =>
      have hfew : s.native.repairCount < 2 := by simpa using hmirrored
      have hroom : s.tracker.repairCount < 2 := by omega
      rw [if_pos rfl, if_pos rfl, if_pos (.inr ⟨rfl, by omega⟩), if_pos (.inr ⟨rfl, hroom⟩)]
      exact { h with state := ⟨.inl rfl, nofun, nofun⟩, running := hkept }
  | validate =>
    cases isError with
    | true =>
      exact { h with state := ⟨.inl rfl, nofun, nofun⟩, publishable := rfl, running := hkept }
    | false =>
      have hplots := h.plots
      cases hall : flags.all with
      | true =>
        simp only [Bool.false_eq_true, if_false, setFlags_accepted, hall, if_true]
        exact { h with
          state := ⟨.inl (by simp [SageTurnTracker.setFlags, hplots]), nofun, nofun⟩
          authoritative := rfl
          passed := by simp [SageTurn.setFlags, SageTurnTracker.setFlags]
          publishable := rfl
          reportReady := rfl
          finalMarkdownReady := rfl
          running := hkept }
      | false =>
        simp only [Bool.false_eq_true, if_false, setFlags_accepted, hall]
        exact { h with
          state := ⟨.inl rfl, nofun, nofun⟩
          authoritative := rfl
          passed := by simp [SageTurn.fail, SageTurnTracker.fail, SageTurn.setFlags,
            SageTurnTracker.setFlags]
          publishable := rfl
          reportReady := rfl
          finalMarkdownReady := rfl
          running := hkept }

/-- Where the result of a repair is an error and there have been two, only the tracker fails. -/
theorem Machines.Related.apart (h : s.Related) (hrunning : phase ∈ s.running) {isError : Bool}
    {flags : SageFlags} {artifactKinds : List String} {artifactCount : ℕ}
    (hapart : ¬s.Mirrored (.result phase isError flags artifactKinds artifactCount)) :
    ¬(s.result phase isError flags artifactKinds artifactCount).Agree := by
  obtain ⟨rfl, hrepair, hcount⟩ := not_not.mp hapart
  have hsame := (h.running phase hrunning).1
  have hbound := h.repairs
  have htracker := h.repair
  intro hagree
  have hfailed := hagree.failed
  unfold Machines.result SageTurn.afterResult SageTurnTracker.recordResult
    Web.sagePhaseBudget at hfailed
  simp [← hsame, hrepair, SageTurnTracker.fail, show s.native.repairCount < 5 by omega,
    show ¬s.tracker.repairCount < 2 by omega] at hfailed

/-! ### Runs -/

theorem Started.related {t : SageTurnTracker} (h : Started t) :
    Machines.Related ⟨.fresh, t, []⟩ := by
  obtain ⟨hplots, rfl | ⟨runId, taskType, requiresPlots, rfl⟩⟩ := h
  · exact ⟨⟨.inr ⟨.inl rfl, .inl rfl⟩, nofun, nofun⟩, rfl, rfl, Nat.zero_le _, rfl, hplots, rfl, rfl,
      rfl, rfl, rfl, nofun⟩
  · exact ⟨⟨.inr ⟨.inl rfl, .inr rfl⟩, nofun, nofun⟩, rfl, rfl, Nat.zero_le _, rfl, hplots, rfl, rfl,
      rfl, rfl, rfl, nofun⟩

theorem MachineStep.related {s t : Machines} {a : MachineAction} (h : s.Related)
    (hstep : MachineStep s a t) (hmirrored : s.Mirrored a) : t.Related := by
  cases hstep with
  | request phase => exact h.request hmirrored
  | result hrunning => exact h.result hrunning hmirrored

/-- In every state that is reached by steps that meet the condition the two machines agree, and
they take the next step alike if and only if it meets the condition too. -/
theorem sage_machines_mirror {t : SageTurnTracker} (hstarted : Started t) {s : Machines}
    (hrun : Run.Guarded MachineStep Machines.Mirrored ⟨.fresh, t, []⟩ s) :
    s.Agree ∧ ∀ a s', MachineStep s a s' → (s.Alike a s' ↔ s.Mirrored a) := by
  have hrelated : s.Related :=
    hrun.invariant (fun _ _ _ h hstep hmirrored => hstep.related h hmirrored) hstarted.related
  refine ⟨hrelated.agree, fun a s' hstep => ?_⟩
  cases hstep with
  | request phase =>
    refine ⟨fun halike => (hrelated.admits phase).mp halike.1, fun hmirrored => ?_⟩
    exact ⟨(hrelated.admits phase).mpr hmirrored, (hrelated.request hmirrored).agree⟩
  | result hrunning isError flags artifactKinds artifactCount =>
    refine ⟨fun hagree => ?_, fun hmirrored => (hrelated.result hrunning hmirrored).agree⟩
    by_contra hapart
    exact hrelated.apart hrunning hapart hagree

/-- A call with its result. -/
def Machines.call (phase : String) (s : Machines) : Machines :=
  (s.request (some phase)).result (some phase) false .none [] 0

/-- The computation has its result, and the validation has been asked for. -/
theorem sage_machines_mirror_computed :
    let s := (Machines.call "compute" ⟨.fresh, .new, []⟩).request (some "validate")
    s.Agree ∧ ∀ a s', MachineStep s a s' → (s.Alike a s' ↔ s.Mirrored a) := by
  have hstart : Run.Guarded MachineStep Machines.Mirrored ⟨.fresh, .new, []⟩ ⟨.fresh, .new, []⟩ :=
    .refl _
  have hrequested := hstart.snoc (.request _ (some "compute")) (by unfold Machines.Mirrored; decide)
  have hcomputed := hrequested.snoc
    (@MachineStep.result _ (some "compute") (by decide) false .none [] 0) fun h => nomatch h.1
  exact sage_machines_mirror ⟨rfl, .inl rfl⟩
    (hcomputed.snoc (.request _ (some "validate")) (by unfold Machines.Mirrored; decide))

theorem free_call {s t : Machines} (h : Run.Free MachineStep s t) (phase : String)
    (hadmitted : some phase ∈ (t.request (some phase)).running) :
    Run.Free MachineStep s (t.call phase) :=
  (h.snoc (.request t (some phase)) trivial).snoc (.result _ hadmitted false .none [] 0) trivial

/-- The agent admits a third repair, the tracker does not. -/
theorem sage_machines_third_repair : ¬ ∀ t, Started t → ∀ s,
    Run.Free MachineStep ⟨.fresh, t, []⟩ s →
      s.Agree ∧ ∀ a s', MachineStep s a s' → s.Alike a s' := by
  intro hclaim
  have hcomputed := free_call (Run.Guarded.refl ⟨.fresh, .new, []⟩) "compute" (by decide)
  have hrepaired := free_call (free_call hcomputed "repair" (by decide)) "repair" (by decide)
  obtain ⟨-, halike⟩ := hclaim .new ⟨rfl, .inl rfl⟩ _ hrepaired
  exact absurd (halike _ _ (.request _ (some "repair"))).1 (by decide)

end Ds4Studio.Agent
