import Ds4Studio.Agent.TurnLog

/-!
The guard against loops over the rounds of a turn: its counter, the ring of the last fingerprints and
the position in it, against the number of rounds in immediate succession that observe the same.
-/

namespace Ds4Studio.Agent

open Bytes Exit List Option

/-! ### Rounds -/

/-- A round as the guard sees it: the first call, if one could be read, whether its result guides the
model on, and whether the user let the turn go on when the guard asked. -/
structure Round where
  call : Option ToolCall
  guidance : Bool
  continued : Bool

/-- What a round observes, unless the run of its calls ends with it. -/
def Round.observed (r : Round) : Option Observation :=
  if r.guidance || r.continued then none else r.call.bind observation

/-- The number of the last rounds that observe the same, the last round first. -/
def runLength : List Round → ℕ
  | [] => 0
  | r :: rest =>
      match r.observed with
      | none => 0
      | some o => ((r :: rest).takeWhile fun r' => r'.observed = some o).length

variable {r : Round}

theorem runLength_of_none (h : r.observed = none) (rest : List Round) :
    runLength (r :: rest) = 0 := by
  simp only [runLength, h]

variable {o : Observation}

theorem runLength_of_some (h : r.observed = some o) (rest : List Round) :
    runLength (r :: rest) = (rest.takeWhile fun r' => r'.observed = some o).length + 1 := by
  simp only [runLength, h, takeWhile_cons_of_pos, decide_true, length_cons]

theorem runLength_cons (h : r.observed = some o) (rest : List Round) :
    runLength (r :: rest) =
      if rest.head?.bind Round.observed = some o then runLength rest + 1 else 1 := by
  rw [runLength_of_some h]
  cases rest with
  | nil => rfl
  | cons r' rest =>
    split
    case isTrue hsame =>
      rw [runLength_of_some hsame, takeWhile_cons_of_pos (by simpa using hsame), length_cons]
    case isFalse hother =>
      rw [takeWhile_cons_of_neg (by simpa using hother)]
      rfl

theorem observed_of_runLength {rest : List Round} (h : runLength rest ≠ 0) :
    ∃ o, rest.head?.bind Round.observed = some o := by
  cases rest with
  | nil => exact absurd rfl h
  | cons r rest =>
    cases hr : r.observed with
    | none => exact absurd (runLength_of_none hr rest) h
    | some o => exact ⟨o, hr⟩

theorem runLength_pos {rest : List Round} (h : rest.head?.bind Round.observed = some o) :
    runLength rest ≠ 0 := by
  cases rest with
  | nil => exact absurd h nofun
  | cons r rest =>
    rw [runLength_of_some h]
    exact Nat.succ_ne_zero _

/-! ### The guard -/

/-- The guard is due. -/
def fires (w : TurnWorker) : Prop :=
  agentLoopGuardEmptyLimit ≤ w.consecutiveEmpty ∨ agentLoopGuardIdenticalLimit ≤ w.consecutiveIdentical

instance (w : TurnWorker) : Decidable (fires w) := inferInstanceAs (Decidable (_ ∨ _))

variable {w : TurnWorker}

theorem not_fires_of_small (hempty : w.consecutiveEmpty = 0)
    (hidentical : w.consecutiveIdentical < agentLoopGuardIdenticalLimit) : ¬ fires w := by
  unfold fires
  rw [hempty, not_or]
  exact ⟨by decide, Nat.not_le.mpr hidentical⟩

/-- What the guard keeps is the same. -/
structure SameGuard (w w' : TurnWorker) : Prop where
  identical : w'.consecutiveIdentical = w.consecutiveIdentical
  empty : w'.consecutiveEmpty = w.consecutiveEmpty
  ring : w'.ring = w.ring
  ringPos : w'.ringPos = w.ringPos

theorem SameGuard.refl (w : TurnWorker) : SameGuard w w := ⟨rfl, rfl, rfl, rfl⟩

variable {env : TurnEnv}

theorem SameGuard.stop (w : TurnWorker) (events : List Event) (role : Role) (text : Bytes) :
    SameGuard w ((w.publish events).append env role text) := ⟨rfl, rfl, rfl, rfl⟩

variable {call : ToolCall} {calls : List ToolCall}

theorem callGuard_cases (env : TurnEnv) (f : Finish) (v : Verdict) (result : Bytes)
    (w : TurnWorker) (hcalls : v.calls = call :: calls) :
    let counted := countCalls call result w
    ¬ fires counted ∧ callGuard env f v result w = .ok counted ∨
    fires counted ∧
      ((∃ events, callGuard env f v result w = .ok ((resetGuards counted).publish events)) ∨
        ∃ w', SameGuard counted w' ∧ callGuard env f v result w = .error (.returned 0 w')) := by
  intro counted
  unfold callGuard
  rw [hcalls]
  dsimp only
  by_cases hfires : fires counted
  · rw [if_pos (show agentLoopGuardEmptyLimit ≤ counted.consecutiveEmpty ∨
      agentLoopGuardIdenticalLimit ≤ counted.consecutiveIdentical from hfires)]
    refine .inr ⟨hfires, ?_⟩
    by_cases halone : env.nonInteractive = true
    · rw [if_pos halone]
      exact .inr ⟨_, SameGuard.stop _ _ _ _, rfl⟩
    · rw [if_neg halone]
      by_cases hcontinues : f.userContinues = true ∧ ¬ f.stopRequested = true
      · rw [if_pos hcontinues]
        exact .inl ⟨_, rfl⟩
      · rw [if_neg hcontinues]
        exact .inr ⟨_, SameGuard.stop _ _ _ _, rfl⟩
  · rw [if_neg (show ¬ (agentLoopGuardEmptyLimit ≤ counted.consecutiveEmpty ∨
      agentLoopGuardIdenticalLimit ≤ counted.consecutiveIdentical) from hfires)]
    exact .inl ⟨hfires, rfl⟩

/-- The fingerprint that was recorded last. -/
def lastRecorded (w : TurnWorker) : Bytes :=
  w.ring ((w.ringPos % agentLoopGuardRingSize + agentLoopGuardRingSize - 1) % agentLoopGuardRingSize)

theorem loopGuardRecord_counter (w : TurnWorker) (fingerprint : Bytes) :
    (loopGuardRecord w fingerprint).consecutiveIdentical =
      if 0 < w.ringPos ∧ lastRecorded w ≠ [] ∧ lastRecorded w = fingerprint then
        min (w.consecutiveIdentical + 1) (2 ^ 31 - 1)
      else 1 := rfl

theorem loopGuardRecord_last (w : TurnWorker) (fingerprint : Bytes) :
    lastRecorded (loopGuardRecord w fingerprint) =
      fingerprint.take (agentLoopGuardFingerprintSize - 1) := by
  have hpos : ((w.ringPos + 1) % agentLoopGuardRingSize + agentLoopGuardRingSize - 1) %
      agentLoopGuardRingSize = w.ringPos % agentLoopGuardRingSize := by
    unfold agentLoopGuardRingSize
    omega
  unfold lastRecorded loopGuardRecord
  dsimp only
  rw [hpos, Function.update_self]

theorem fingerprintCall_bounds {text : Bytes} (h : fingerprintCall call = some text) :
    text ≠ [] ∧ text.take (agentLoopGuardFingerprintSize - 1) = text := by
  unfold fingerprintCall at h
  split at h
  case isTrue =>
    split at h
    case h_1 => exact absurd h nofun
    case h_2 => exact absurd h nofun
    case h_3 path _ _ =>
      obtain ⟨hfits, htext⟩ := ite_none_left_eq_some.mp h
      rw [← some.inj htext]
      refine ⟨fun hnil => ?_, take_of_length_le ?_⟩
      · simp only [readFingerprint, append_eq_nil_iff] at hnil
        exact absurd hnil.1.1.1.1.1.1.1.1.1 (by decide)
      · rw [Nat.not_le] at hfits
        exact Nat.le_sub_one_of_lt hfits
  case isFalse =>
    split at h
    case h_1 => exact absurd h nofun
    case h_2 => exact absurd h nofun
    case h_3 tool command _ _ =>
      obtain ⟨hne, htext⟩ := ite_none_left_eq_some.mp h
      rw [← some.inj htext]
      refine ⟨hne, take_of_length_le ?_⟩
      exact length_take_le _ _

theorem countCalls_identical (call : ToolCall) (result : Bytes) (w : TurnWorker) :
    (countCalls call result w).consecutiveIdentical =
      if isProgressGuidance result then 0 else (countIdentical call w).consecutiveIdentical := by
  unfold countCalls
  split_ifs <;> rfl

theorem countCalls_ring (call : ToolCall) (result : Bytes) (w : TurnWorker) :
    (countCalls call result w).ringPos = (countIdentical call w).ringPos ∧
      lastRecorded (countCalls call result w) = lastRecorded (countIdentical call w) := by
  unfold countCalls
  split_ifs <;> exact ⟨rfl, rfl⟩

/-! ### A turn -/

/-- The worker at the end of each round, the rounds of the turn, the last one first, and whether the
guard has stopped it. -/
structure GuardRun where
  worker : TurnWorker
  rounds : List Round
  ended : Bool

/-- The end of a round: what its calls and their result are, and the worker in front of the guard. -/
structure RoundEnd where
  worker : TurnWorker
  finish : Finish
  verdict : Verdict
  result : Bytes

def RoundEnd.guard (env : TurnEnv) (a : RoundEnd) : Except Next TurnWorker :=
  callGuard env a.finish a.verdict a.result a.worker

def RoundEnd.guidance (a : RoundEnd) : Bool := a.verdict.calls ≠ [] && isProgressGuidance a.result

/-- The guard was due and the turn goes on. -/
def RoundEnd.continued (env : TurnEnv) (a : RoundEnd) : Bool :=
  match a.verdict.calls, a.guard env with
  | call :: _, .ok _ => decide (fires (countCalls call a.result a.worker))
  | _, _ => false

def RoundEnd.round (env : TurnEnv) (a : RoundEnd) : Round where
  call := a.verdict.calls.head?
  guidance := a.guidance
  continued := a.continued env

/-- A round ends. Nothing else in a turn touches what the guard keeps (`turn_rounds`). -/
def guardStep (env : TurnEnv) (s : GuardRun) (a : RoundEnd) (t : GuardRun) : Prop :=
  s.ended = false ∧ SameGuard s.worker a.worker ∧ t.rounds = a.round env :: s.rounds ∧
    match a.guard env with
    | .ok w => t.worker = w ∧ t.ended = false
    | .error (.head w) | .error (.returned _ w) => t.worker = w ∧ t.ended = true

/-- The turn begins. -/
def GuardRun.begin (w : TurnWorker) : GuardRun := ⟨resetGuards w, [], false⟩

/-- The result of a round guides the model on; or no call could be read and no run of calls is going
on; or the call is kept in full and what it observes is told apart from what the run observes. -/
def Told (s : GuardRun) (a : RoundEnd) : Prop :=
  a.guidance = true ∨
  match a.verdict.calls.head? with
  | none => runLength s.rounds = 0
  | some call =>
      KeptInFull call ∧
        ∀ o o', s.rounds.head?.bind Round.observed = some o → observation call = some o' →
          Apart o o'

/-- What was recorded for the run in front of a round. -/
def Recorded (w : TurnWorker) (rounds : List Round) : Prop :=
  ∀ o, rounds.head?.bind Round.observed = some o →
    0 < w.ringPos ∧ lastRecorded w = o.label ∧ o.label ≠ []

/-- The counter is the length of the run, and what the run observes was recorded last. -/
structure Counts (s : GuardRun) : Prop where
  counter : s.worker.consecutiveIdentical = runLength s.rounds
  quiet : s.ended = false → ¬ fires s.worker
  due : s.ended = true → fires s.worker
  recorded : Recorded s.worker s.rounds

theorem SameGuard.fires_iff {w' : TurnWorker} (h : SameGuard w w') : fires w' ↔ fires w := by
  unfold fires
  rw [h.empty, h.identical]

theorem SameGuard.lastRecorded_eq {w' : TurnWorker} (h : SameGuard w w') :
    lastRecorded w' = lastRecorded w := by
  unfold lastRecorded
  rw [h.ring, h.ringPos]

/-- A call whose observation is told apart from that of the run is counted and recorded. -/
theorem countIdentical_counts {rounds : List Round}
    (hcounter : w.consecutiveIdentical = runLength rounds)
    (hsmall : w.consecutiveIdentical < agentLoopGuardIdenticalLimit) (hrecorded : Recorded w rounds)
    (hfull : KeptInFull call)
    (hapart : ∀ o o', rounds.head?.bind Round.observed = some o → observation call = some o' →
      Apart o o')
    (hr : r.observed = observation call) :
    (countIdentical call w).consecutiveIdentical = runLength (r :: rounds) ∧
      Recorded (countIdentical call w) (r :: rounds) := by
  have hfingerprint : fingerprintCall call = (observation call).map Observation.label :=
    fingerprintCall_eq hfull
  cases hcall : observation call with
  | none =>
    rw [hcall] at hfingerprint hr
    unfold countIdentical
    simp only [hfingerprint, map_none]
    refine ⟨(runLength_of_none hr rounds).symm, fun o ho => ?_⟩
    rw [head?_cons, bind_some, hr] at ho
    exact absurd ho nofun
  | some o' =>
    rw [hcall, map_some] at hfingerprint
    rw [hcall] at hr
    obtain ⟨hne, htake⟩ := fingerprintCall_bounds hfingerprint
    unfold countIdentical
    simp only [hfingerprint]
    constructor
    · rw [loopGuardRecord_counter, runLength_cons hr]
      have hlimit : agentLoopGuardIdenticalLimit < 2 ^ 31 := by decide
      by_cases hrun : runLength rounds = 0
      · -- no run is going on: either way the counter becomes 1
        have hfresh : rounds.head?.bind Round.observed ≠ some o' := fun h => runLength_pos h hrun
        rw [hcounter, hrun]
        split <;> rfl
      · obtain ⟨o, ho⟩ := observed_of_runLength hrun
        obtain ⟨hpos, hlast, hlabel⟩ := hrecorded o ho
        have hiff := (hapart o o' ho hcall).label_eq_iff
        by_cases hsame : o = o'
        · have hagain : 0 < w.ringPos ∧ lastRecorded w ≠ [] ∧ lastRecorded w = o'.label :=
            ⟨hpos, hlast ▸ hlabel, hlast.trans (hiff.mpr hsame)⟩
          rw [if_pos hagain, if_pos (ho.trans (congrArg some hsame))]
          omega
        · have hother : ¬ (0 < w.ringPos ∧ lastRecorded w ≠ [] ∧ lastRecorded w = o'.label) :=
            fun h => hsame (hiff.mp (hlast.symm.trans h.2.2))
          rw [if_neg hother, if_neg (fun h => hsame (some.inj (ho.symm.trans h)))]
    · intro o ho
      rw [head?_cons, bind_some, hr, some.injEq] at ho
      rw [← ho]
      refine ⟨Nat.succ_pos _, ?_, hne⟩
      rw [loopGuardRecord_last, htake]

variable {a : RoundEnd}

theorem round_observed_none (h : a.guidance = true ∨ a.continued env = true) :
    (a.round env).observed = none := by
  unfold Round.observed RoundEnd.round
  rw [if_pos (by simpa using h)]

theorem round_observed (hcalls : a.verdict.calls = call :: calls) (hguidance : a.guidance = false)
    (hcontinued : a.continued env = false) : (a.round env).observed = observation call := by
  simp [Round.observed, RoundEnd.round, hcalls, hguidance, hcontinued]

theorem Recorded.of_none {rounds : List Round} (h : r.observed = none) :
    Recorded w (r :: rounds) := by
  intro o ho
  rw [head?_cons, bind_some, h] at ho
  exact absurd ho nofun

theorem guardStep_counts_nil {s t : GuardRun} (hs : Counts s) (hstep : guardStep env s a t)
    (htold : Told s a) (hcalls : a.verdict.calls = []) : Counts t := by
  obtain ⟨hgoing, hsame, hrounds, hguard⟩ := hstep
  have hok : a.guard env = .ok a.worker := by simp only [RoundEnd.guard, callGuard, hcalls]
  have hobserved : (a.round env).observed = none := by simp [Round.observed, RoundEnd.round, hcalls]
  have hzero : runLength s.rounds = 0 := by simpa [Told, RoundEnd.guidance, hcalls] using htold
  rw [hok] at hguard
  obtain ⟨hworker, hover⟩ := hguard
  refine ⟨?_, fun _ => ?_, fun h => absurd (hover.symm.trans h) nofun, ?_⟩
  · rw [hworker, hrounds, runLength_of_none hobserved, hsame.identical, hs.counter, hzero]
  · rw [hworker, hsame.fires_iff]
    exact hs.quiet hgoing
  · rw [hrounds]
    exact .of_none hobserved

/-- What the counters are after the call of a round has been counted, if the guard does not forget
them. -/
theorem countCalls_counts {s : GuardRun} (hs : Counts s) (hgoing : s.ended = false)
    (hsame : SameGuard s.worker a.worker) (htold : Told s a)
    (hcalls : a.verdict.calls = call :: calls) (hcontinued : a.continued env = false) :
    let counted := countCalls call a.result a.worker
    counted.consecutiveIdentical = runLength (a.round env :: s.rounds) ∧
      Recorded counted (a.round env :: s.rounds) := by
  intro counted
  have hidentical := countCalls_identical call a.result a.worker
  cases hguidance : isProgressGuidance a.result with
  | true =>
    have hobserved : (a.round env).observed = none := by
      apply round_observed_none
      simp [RoundEnd.guidance, hcalls, hguidance]
    rw [hguidance] at hidentical
    exact ⟨hidentical.trans (runLength_of_none hobserved _).symm, .of_none hobserved⟩
  | false =>
    have hguides : a.guidance = false := by simp [RoundEnd.guidance, hguidance]
    rw [hguidance] at hidentical
    obtain ⟨hfull, hapart⟩ : KeptInFull call ∧ ∀ o o',
        s.rounds.head?.bind Round.observed = some o → observation call = some o' → Apart o o' := by
      simpa [Told, hguides, hcalls] using htold
    have hsmall : a.worker.consecutiveIdentical < agentLoopGuardIdenticalLimit := by
      have hquiet := hs.quiet hgoing
      unfold fires at hquiet
      rw [hsame.identical]
      omega
    have hrecorded : Recorded a.worker s.rounds := by
      intro o ho
      rw [hsame.ringPos, hsame.lastRecorded_eq]
      exact hs.recorded o ho
    obtain ⟨hcounts, hlast⟩ := countIdentical_counts
      (hsame.identical.trans hs.counter) hsmall hrecorded hfull hapart
      (round_observed hcalls hguides hcontinued)
    obtain ⟨hringPos, hring⟩ := countCalls_ring call a.result a.worker
    refine ⟨hidentical.trans hcounts, fun o ho => ?_⟩
    rw [hringPos, hring]
    exact hlast o ho

theorem guardStep_counts {s t : GuardRun} (hs : Counts s) (hstep : guardStep env s a t)
    (htold : Told s a) : Counts t := by
  cases hcalls : a.verdict.calls with
  | nil => exact guardStep_counts_nil hs hstep htold hcalls
  | cons call calls =>
    obtain ⟨hgoing, hsame, hrounds, hguard⟩ := hstep
    rcases callGuard_cases env a.finish a.verdict a.result a.worker hcalls with
      ⟨hquiet, hok⟩ | ⟨hfires, ⟨events, hok⟩ | ⟨w', hstop, herror⟩⟩
    · have hguard' : a.guard env = .ok _ := hok
      have hcontinued : a.continued env = false := by
        simp only [RoundEnd.continued, hcalls, hguard', hquiet, decide_false]
      obtain ⟨hcounter, hrecorded⟩ := countCalls_counts hs hgoing hsame htold hcalls hcontinued
      rw [hguard'] at hguard
      obtain ⟨hworker, hover⟩ := hguard
      refine ⟨?_, fun _ => hworker ▸ hquiet, fun h => absurd (hover.symm.trans h) nofun, ?_⟩
      · rw [hworker, hrounds, hcounter]
      · rw [hworker, hrounds]
        exact hrecorded
    · have hguard' : a.guard env = .ok _ := hok
      have hcontinued : a.continued env = true := by
        simp only [RoundEnd.continued, hcalls, hguard', hfires, decide_true]
      have hobserved := round_observed_none (.inr hcontinued)
      rw [hguard'] at hguard
      obtain ⟨hworker, hover⟩ := hguard
      refine ⟨?_, fun _ => ?_, fun h => absurd (hover.symm.trans h) nofun, ?_⟩
      · rw [hworker, hrounds, runLength_of_none hobserved]
        rfl
      · rw [hworker]
        exact not_fires_of_small rfl (by decide : 0 < agentLoopGuardIdenticalLimit)
      · rw [hrounds]
        exact .of_none hobserved
    · have hguard' : a.guard env = .error (.returned 0 w') := herror
      have hcontinued : a.continued env = false := by
        simp only [RoundEnd.continued, hcalls, hguard']
      obtain ⟨hcounter, hrecorded⟩ := countCalls_counts hs hgoing hsame htold hcalls hcontinued
      rw [hguard'] at hguard
      obtain ⟨hworker, hover⟩ := hguard
      refine ⟨?_, fun h => absurd (hover.symm.trans h) nofun, fun _ => ?_, ?_⟩
      · rw [hworker, hrounds, hstop.identical, hcounter]
      · rw [hworker]
        exact hstop.fires_iff.mpr hfires
      · rw [hworker, hrounds]
        intro o ho
        rw [hstop.ringPos, hstop.lastRecorded_eq]
        exact hrecorded o ho

theorem begin_counts (w : TurnWorker) : Counts (.begin w) where
  counter := rfl
  quiet _ := not_fires_of_small rfl (by decide : 0 < agentLoopGuardIdenticalLimit)
  due h := absurd h nofun
  recorded _ h := absurd h nofun

/-- In every turn whose calls are told apart the counter is the length of the current run of rounds
that observe the same, and the guard stops the turn only for a run of four, or for ten empty
results. -/
theorem loopGuard_counts_run (env : TurnEnv) (w : TurnWorker) {t : GuardRun}
    (hrun : Run.Guarded (guardStep env) Told (.begin w) t) :
    t.worker.consecutiveIdentical = runLength t.rounds ∧
      (t.ended = true → agentLoopGuardIdenticalLimit ≤ runLength t.rounds ∨
        agentLoopGuardEmptyLimit ≤ t.worker.consecutiveEmpty) := by
  have hstep : ∀ s a t, Counts s → guardStep env s a t → Told s a → Counts t :=
    fun _ _ _ => guardStep_counts
  have hcounts : Counts t := hrun.invariant hstep (begin_counts w)
  refine ⟨hcounts.counter, fun hover => ?_⟩
  have hdue := hcounts.due hover
  unfold fires at hdue
  rw [hcounts.counter] at hdue
  exact hdue.symm

/-! ### The rounds of a turn -/

theorem SameGuard.trans {w' w'' : TurnWorker} (h : SameGuard w w') (h' : SameGuard w' w'') :
    SameGuard w w'' :=
  ⟨h'.identical.trans h.identical, h'.empty.trans h.empty, h'.ring.trans h.ring,
    h'.ringPos.trans h.ringPos⟩

theorem compactWorker_same (env : TurnEnv) (r : Rebuild) (w : TurnWorker) :
    SameGuard w (compactWorker env r w).1 := by
  unfold compactWorker
  split_ifs <;> exact ⟨rfl, rfl, rfl, rfl⟩

theorem compactIfNeeded_same (env : TurnEnv) (r : Rebuild) (w : TurnWorker) :
    SameGuard w (compactIfNeeded env r w).1 := by
  have hevict : SameGuard w (evictIfNeeded env r w) := by
    unfold evictIfNeeded evictWorker
    split_ifs <;> exact ⟨rfl, rfl, rfl, rfl⟩
  unfold compactIfNeeded
  split_ifs
  · exact hevict.trans (compactWorker_same env r _)
  · exact hevict

theorem openRound_same (env : TurnEnv) (w : TurnWorker) : SameGuard w (openRound env w) := by
  unfold openRound maybeAppendReminder
  dsimp only
  split_ifs <;> exact ⟨rfl, rfl, rfl, rfl⟩

/-- The rounds in front of `w'`, in a turn that goes on unless it is `gone`. -/
def Rounds (env : TurnEnv) (w : TurnWorker) (gone : Prop) (w' : TurnWorker) : Prop :=
  ∃ t, Run.Free (guardStep env) (.begin w) t ∧ SameGuard t.worker w' ∧ (t.ended = true → gone)

/-- The turn has returned, perhaps in front of its rounds. -/
def Over (env : TurnEnv) (w w' : TurnWorker) : Prop := SameGuard w w' ∨ Rounds env w True w'

abbrev Leaving (env : TurnEnv) (start : TurnWorker) : Next → Prop :=
  Next.Holds (Rounds env start False) (Over env start)

section

variable {σ : Type} {sm : Stream σ} {start w' : TurnWorker} (h : Rounds env start False w)

include h

theorem Rounds.of_same (hsame : SameGuard w w') : Rounds env start False w' :=
  h.imp fun _ ht => ⟨ht.1, ht.2.1.trans hsame, ht.2.2⟩

theorem Rounds.gone (hsame : SameGuard w w') : Over env start w' :=
  .inr (h.imp fun _ ht => ⟨ht.1, ht.2.1.trans hsame, fun _ => trivial⟩)

theorem roundHead_rounds (toolRound : ℕ) (r : Rebuild) (sync : SyncResult) :
    Meets (roundHead env sm toolRound r sync w) (fun x => Rounds env start False x.1)
      (Leaving env start) := by
  have hcontinue : SameGuard w (continueRound env toolRound r w).1 := by
    unfold continueRound
    split_ifs
    · exact compactIfNeeded_same env r w
    · exact SameGuard.refl w
  refine Meets.ite (fun _ => h.gone ⟨rfl, rfl, rfl, rfl⟩) fun _ => ?_
  split
  · rename_i heq
    rw [heq] at hcontinue
    exact h.gone hcontinue
  · rename_i heq
    rw [heq] at hcontinue
    have hopen := hcontinue.trans (openRound_same env _)
    dsimp only
    split
    · exact h.gone (hopen.trans ⟨rfl, rfl, rfl, rfl⟩)
    · exact h.gone hopen
    · exact Meets.ite (fun _ => h.gone (hopen.trans ⟨rfl, rfl, rfl, rfl⟩))
        fun _ => h.of_same hopen

theorem sageBlock_rounds (v : Verdict) :
    Meets (sageBlock env v w) (Rounds env start False) (Leaving env start) := by
  refine Meets.ite (fun _ => ?_) fun _ => h
  exact Meets.ite (fun _ => h.of_same ⟨rfl, rfl, rfl, rfl⟩)
    fun _ => h.gone ⟨rfl, rfl, rfl, rfl⟩

theorem proseCheck_rounds (v : Verdict) :
    Meets (proseCheck env v w) (Rounds env start False) (Leaving env start) := by
  refine Meets.ite (fun _ => ?_) fun _ => h
  refine Meets.ite (fun _ => h.of_same ⟨rfl, rfl, rfl, rfl⟩) fun _ => ?_
  exact Meets.ite (fun _ => h.gone ⟨rfl, rfl, rfl, rfl⟩) fun _ => h.gone ⟨rfl, rfl, rfl, rfl⟩

theorem recordResult_rounds (f : Finish) (result : Bytes) :
    Meets (recordResult env f result w) (fun x => Rounds env start False x.1)
      (Leaving env start) := by
  have hcompact := compactWorker_same env f.rebuild w
  refine Meets.ite (fun _ => h.of_same ⟨rfl, rfl, rfl, rfl⟩) fun _ => ?_
  split
  · rename_i heq
    rw [heq] at hcompact
    exact h.gone hcompact
  · rename_i heq
    rw [heq] at hcompact
    refine Meets.ite (fun _ => h.of_same (hcompact.trans ⟨rfl, rfl, rfl, rfl⟩)) fun _ => ?_
    exact Meets.ite (fun _ => h.of_same (hcompact.trans ⟨rfl, rfl, rfl, rfl⟩))
      fun _ => h.gone hcompact

theorem sageGuard_rounds (f : Finish) (v : Verdict) :
    Meets (sageGuard env f v w) (Rounds env start False) (Leaving env start) := by
  refine Meets.ite (fun _ => ?_) fun _ => h.of_same ⟨rfl, rfl, rfl, rfl⟩
  dsimp only
  split
  · exact h.gone ⟨rfl, rfl, rfl, rfl⟩
  · exact h.of_same ⟨rfl, rfl, rfl, rfl⟩

theorem publishFinal_rounds :
    Meets (publishFinal env w) (Rounds env start False) (Leaving env start) := by
  unfold publishFinal
  split
  · exact h
  · exact h
  · exact Meets.ite (fun _ => h.gone ⟨rfl, rfl, rfl, rfl⟩) fun _ => h

/-- The guard ends a round. -/
theorem callGuard_rounds (f : Finish) (v : Verdict) (result : Bytes) :
    Meets (callGuard env f v result w) (Rounds env start False) (Leaving env start) := by
  obtain ⟨t, hrun, hsame, hgoing⟩ := h
  have hended : t.ended = false := Bool.eq_false_iff.mpr hgoing
  let a : RoundEnd := ⟨w, f, v, result⟩
  cases hcall : a.guard env with
  | ok w' =>
    have hstep : guardStep env t a ⟨w', a.round env :: t.rounds, false⟩ :=
      ⟨hended, hsame, rfl, hcall ▸ ⟨rfl, rfl⟩⟩
    have hrounds : Rounds env start False w' :=
      ⟨_, hrun.snoc hstep trivial, SameGuard.refl w', nofun⟩
    rw [show callGuard env f v result w = .ok w' from hcall]
    exact hrounds
  | error next => 
    cases hcalls : v.calls with
    | nil =>
      have hok : a.guard env = .ok w := by simp only [a, RoundEnd.guard, callGuard, hcalls]
      exact nomatch hok.symm.trans hcall
    | cons call calls =>
      rcases callGuard_cases env f v result w hcalls with ⟨-, hok⟩ | ⟨-, ⟨_, hok⟩ | ⟨w', -, herror⟩⟩
      · exact nomatch hok.symm.trans hcall
      · exact nomatch hok.symm.trans hcall
      · cases herror.symm.trans hcall
        have hstep : guardStep env t a ⟨w', a.round env :: t.rounds, true⟩ :=
          ⟨hended, hsame, rfl, hcall ▸ ⟨rfl, rfl⟩⟩
        rw [herror]
        exact .inr ⟨_, hrun.snoc hstep trivial, SameGuard.refl w', fun _ => trivial⟩

theorem afterMessage_rounds (f : Finish) (v : Verdict) :
    Meets (afterMessage env f v w) (Rounds env start False) (Leaving env start) := by
  refine (sageBlock_rounds h v).bind fun w₁ h₁ => ?_
  refine (proseCheck_rounds h₁ v).bind fun w₂ h₂ => ?_
  have hresult : SameGuard w₂ (roundResult env f v w₂).1 := by
    unfold roundResult
    split_ifs <;> exact ⟨rfl, rfl, rfl, rfl⟩
  refine (recordResult_rounds (h₂.of_same hresult) f _).bind fun x hx => ?_
  refine (sageGuard_rounds hx f v).bind fun w₃ h₃ => ?_
  refine (publishFinal_rounds h₃).bind fun w₄ h₄ => ?_
  refine Meets.bind (P := Rounds env start False)
    (Meets.ite (fun _ => h₄.gone ⟨rfl, rfl, rfl, rfl⟩) fun _ => h₄) fun w₅ h₅ => ?_
  refine (callGuard_rounds h₅ f v x.2).bind fun w₆ h₆ => h₆.of_same ?_
  unfold drainQueuedUser
  split <;> exact ⟨rfl, rfl, rfl, rfl⟩

end

variable {σ : Type} {sm : Stream σ}

theorem rendererWrites_same (w : TurnWorker) (deferred : Option Bytes) (writes : List Bytes) :
    SameGuard w (rendererWrites w deferred writes).1 := by
  unfold rendererWrites
  split <;> exact ⟨rfl, rfl, rfl, rfl⟩

/-- In every turn nothing but the guards at the ends of its rounds touches what they keep. -/
theorem turn_rounds {st : TurnState σ}
    (hrun : Run.Free (fun st input st' => turnStep env sm st input = st') ⟨.idle, w⟩ st) :
    st.Holds (· = w) (Rounds env w False) (fun w' _ => Rounds env w False w') (Over env w) := by
  refine hrun.invariant (fun st input st' h hstep _ => ?_) rfl
  rw [← hstep]
  refine turnStep_holds h ?_ (fun toolRound r sync _ _ h => roundHead_rounds h toolRound r sync) ?_ ?_
  · rintro user date r rfl
    have hcompact := compactIfNeeded_same env r (resetSage st.worker)
    unfold beginTurn
    split
    · rename_i heq
      rw [heq] at hcompact
      exact .inl ⟨hcompact.identical, hcompact.empty, hcompact.ring, hcompact.ringPos⟩
    · rename_i w' heq
      rw [heq] at hcompact
      refine ⟨_, .refl _, ⟨rfl, rfl, Eq.trans ?_ hcompact.ring, rfl⟩, nofun⟩
      unfold maybeAppendDatetime
      split_ifs <;> rfl
  · intro toolRound l interrupt token evalOk _ _ h
    refine sampleStep_meets (fun w' _ => Rounds env w False w') h (fun t _ w' l' h => ?_)
      (fun _ _ => h.gone (.refl _)) (fun _ _ _ _ h => h.gone (.refl _))
    have hpush : SameGuard w' (w'.push [t] (.token t)) := ⟨rfl, rfl, rfl, rfl⟩
    exact h.of_same (hpush.trans (rendererWrites_same _ _ _))
  · intro toolRound l f _ _ h
    have hclosed : SameGuard st.worker
        ((rendererWrites st.worker l.deferred (sm.finish l.stream).2).1.pushEos env) :=
      (rendererWrites_same st.worker l.deferred _).trans ⟨rfl, rfl, rfl, rfl⟩
    exact roundEnd_holds (h.gone (hclosed.trans ⟨rfl, rfl, rfl, rfl⟩))
      fun _ => afterMessage_rounds (h.of_same hclosed) f _

/-! ### Runs of one and of two rounds -/

/-- Neither empty nor a guidance. -/
def plainResult : Bytes := List.replicate 16 0x78

/-- The end of a round with one call. -/
def roundOf (w : TurnWorker) (call : ToolCall) : RoundEnd where
  worker := w
  finish := interruptedFinish
  verdict := ⟨true, false, false, false, [], [], [call], [], false⟩
  result := plainResult

theorem roundOf_step {s : GuardRun} {text : Bytes} (hgoing : s.ended = false)
    (hfingerprint : fingerprintCall call = some text)
    (hidentical : (loopGuardRecord s.worker text).consecutiveIdentical <
      agentLoopGuardIdenticalLimit) :
    guardStep (turnEnv 4096) s (roundOf s.worker call)
      ⟨{ loopGuardRecord s.worker text with consecutiveEmpty := 0 },
        ⟨some call, false, false⟩ :: s.rounds, false⟩ := by
  have hcounted : countCalls call plainResult s.worker =
      { loopGuardRecord s.worker text with consecutiveEmpty := 0 } := by
    have hcount : countIdentical call s.worker =
        loopGuardRecord s.worker text := by
      unfold countIdentical
      rw [hfingerprint]
    unfold countCalls
    rw [hcount]
    rfl
  have hquiet : ¬ fires (countCalls call plainResult
      s.worker) := by
    rw [hcounted]
    exact not_fires_of_small rfl hidentical
  have hok : (roundOf s.worker call).guard (turnEnv 4096) =
      .ok { loopGuardRecord s.worker text with consecutiveEmpty := 0 } := by
    rcases callGuard_cases (turnEnv 4096) interruptedFinish
      (roundOf s.worker call).verdict plainResult s.worker rfl with
      ⟨-, hok⟩ | ⟨hfires, -⟩
    · rw [hcounted] at hok
      exact hok
    · exact absurd hfires hquiet
  refine ⟨hgoing, SameGuard.refl _, ?_, ?_⟩
  · have hround : (roundOf s.worker call).round (turnEnv 4096) = ⟨some call, false, false⟩ := by
      have hcontinued : (roundOf s.worker call).continued (turnEnv 4096) = false := by
        unfold RoundEnd.continued
        rw [hok]
        exact decide_eq_false hquiet
      unfold RoundEnd.round
      rw [hcontinued]
      rfl
    rw [hround]
  · rw [hok]
    exact ⟨rfl, rfl⟩

/-- The state behind a round with one call. -/
def after (s : GuardRun) (call : ToolCall) (text : Bytes) : GuardRun :=
  ⟨{ loopGuardRecord s.worker text with consecutiveEmpty := 0 },
    ⟨some call, false, false⟩ :: s.rounds, false⟩

theorem filtersInFull_of_none {cmd : Bytes} (h : ∀ s ∈ cmd.tails, isNoise s = false) :
    FiltersInFull cmd := by
  intro s hs hnoise
  rw [h s ((mem_tails s cmd).mpr hs)] at hnoise
  exact absurd hnoise nofun

theorem keptInFull_ls : KeptInFull (callOf "bash" "ls") := by
  intro tool command hcommand hne
  obtain rfl : str "ls" = command := by
    have h : commandOf (callOf "bash" "ls") = some (.bash, str "ls") := by decide
    exact (Prod.mk.inj (some.inj (h.symm.trans hcommand))).2
  refine ⟨filtersInFull_of_none (by decide), ?_⟩
  have hremove : removeFilters [0x6c, 0x73] = [0x6c, 0x73] := by
    rw [removeFilters_cons (by decide), removeFilters_cons (by decide), removeFilters]
  rw [show str "ls" = [0x6c, 0x73] by decide, normalForm, hremove]
  decide

/-- The same command twice. -/
theorem loopGuard_counts_run_ls : ∃ t,
    Run.Guarded (guardStep (turnEnv 4096)) Told (.begin idleWorker) t ∧ t.rounds.length = 2 ∧
      t.worker.consecutiveIdentical = runLength t.rounds := by
  have hfingerprint : fingerprintCall (callOf "bash" "ls") = some (str "ls") := by decide
  have hsame : ∀ o o', observation (callOf "bash" "ls") = some o →
      observation (callOf "bash" "ls") = some o' → Apart o o' := by
    intro o o' ho ho'
    obtain rfl : o = o' := some.inj (ho.symm.trans ho')
    cases o with
    | read path range => exact fun _ _ => rfl
    | command tool text => exact fun _ => ⟨rfl, rfl⟩
  have hfirst := roundOf_step (s := .begin idleWorker) rfl hfingerprint (by decide)
  have hsecond := roundOf_step (s := after (.begin idleWorker) (callOf "bash" "ls") (str "ls")) rfl
    hfingerprint (by decide)
  have hrun : Run.Guarded (guardStep (turnEnv 4096)) Told (.begin idleWorker)
      (after (.begin idleWorker) (callOf "bash" "ls") (str "ls")) :=
    .snoc (.refl _) hfirst (.inr ⟨keptInFull_ls, nofun⟩)
  have hrun' := hrun.snoc hsecond (.inr ⟨keptInFull_ls, hsame⟩)
  exact ⟨_, hrun', rfl, (loopGuard_counts_run (turnEnv 4096) idleWorker hrun').1⟩

/-- A command of one tool and then the same text as a command of another one: counted as two. -/
theorem tools_conflated : ¬ ∀ t, Run.Free (guardStep (turnEnv 4096)) (.begin idleWorker) t →
    t.worker.consecutiveIdentical = runLength t.rounds := by
  intro h
  have hbash : fingerprintCall (callOf "bash" "x") = some (str "x") := by decide
  have hgrep : fingerprintCall (callOf "grep" "x") = some (str "x") := by decide
  have hfirst := roundOf_step (s := .begin idleWorker) rfl hbash (by decide)
  have hsecond := roundOf_step (s := after (.begin idleWorker) (callOf "bash" "x") (str "x")) rfl
    hgrep (by decide)
  have hrun : Run.Free (guardStep (turnEnv 4096)) (.begin idleWorker)
      (after (.begin idleWorker) (callOf "bash" "x") (str "x")) :=
    Run.Guarded.snoc (.refl _) hfirst trivial
  have hcounted := h _ (hrun.snoc hsecond trivial)
  have hone : runLength [⟨some (callOf "grep" "x"), false, false⟩,
      ⟨some (callOf "bash" "x"), false, false⟩] = 1 := by
    have hgrep' : observation (callOf "grep" "x") =
      some (.command .grep (normalForm (str "x"))) := rfl
    have hbash' : observation (callOf "bash" "x") =
      some (.command .bash (normalForm (str "x"))) := rfl
    rw [runLength_cons (r := ⟨some (callOf "grep" "x"), false, false⟩) hgrep']
    refine if_neg fun hsame => ?_
    have htools : Tool.bash = Tool.grep := (Observation.command.inj
      (some.inj (hbash'.symm.trans hsame))).1
    exact absurd htools nofun
  have htwo : (loopGuardRecord (after (.begin idleWorker) (callOf "bash" "x") (str "x")).worker
      (str "x")).consecutiveIdentical = 2 := by decide
  exact absurd (htwo.symm.trans (hcounted.trans hone)) nofun

end Ds4Studio.Agent
