import Ds4Studio.Agent.TurnLog

/-!
What a turn publishes once the mathematical tool has been called: no generated text, and
at most the one report that was validated under the run id of the turn.
-/

namespace Ds4Studio.Agent

open Bytes Exit List Tokenizer

/-! ### What is promised -/

/-- The responses that were accepted as ready, with the run id they were accepted under. -/
def validations (events : List Event) : List (SageHttpResult × Bytes) :=
  events.filterMap fun e =>
    match e with
    | .validated r runId => some (r, runId)
    | _ => none

def finals (events : List Event) : List Bytes :=
  events.filterMap fun e =>
    match e with
    | .final markdown => some markdown
    | _ => none

/-- No generated text is rendered for the client behind an admitted call. -/
def Withheld (events : List Event) : Prop :=
  events.Pairwise fun e e' => ∀ phase text, e = .admitted phase → e' ≠ .rendered text

/-- The report of one ready response, published once, behind its only validation. -/
def PublishesReport (runId : Bytes) (events : List Event) : Prop :=
  ∃ before r markdown, events = before ++ [.final markdown] ∧ finals before = [] ∧
    validations before = [(r, runId)] ∧ r.isReady runId = true ∧
    r.finalMarkdown = some markdown

/-! ### Events -/

/-- Events that are neither rendered text nor a report nor a step of the tool. -/
def Event.Quiet : Event → Prop
  | .status _ | .sageStatus _ | .summary _ => True
  | _ => False

/-- Events that are neither rendered text nor a report. -/
def Event.Inner : Event → Prop
  | .rendered _ | .final _ => False
  | _ => True

theorem Event.Quiet.inner {e : Event} (h : e.Quiet) : e.Inner := by
  cases e <;> first | exact h | trivial

theorem validations_append (xs ys : List Event) :
    validations (xs ++ ys) = validations xs ++ validations ys :=
  filterMap_append

theorem finals_append (xs ys : List Event) : finals (xs ++ ys) = finals xs ++ finals ys :=
  filterMap_append

variable {events : List Event}

theorem validations_quiet (h : ∀ e ∈ events, e.Quiet) : validations events = [] := by
  rw [validations, filterMap_eq_nil_iff]
  intro e he
  have hquiet := h e he
  cases e <;> first | rfl | exact hquiet.elim

theorem finals_inner (h : ∀ e ∈ events, e.Inner) : finals events = [] := by
  rw [finals, filterMap_eq_nil_iff]
  intro e he
  have hinner := h e he
  cases e <;> first | rfl | exact hinner.elim

theorem Withheld.append {events more : List Event} (h : Withheld events)
    (hmore : ∀ text, .rendered text ∉ more) : Withheld (events ++ more) := by
  rw [Withheld, pairwise_append]
  refine ⟨h, pairwise_of_forall_mem_list ?_, ?_⟩
  · intro e _ e' he' phase text _ heq
    exact hmore text (heq ▸ he')
  · intro e _ e' he' phase text _ heq
    exact hmore text (heq ▸ he')

theorem withheld_of_free (h : ∀ phase, .admitted phase ∉ events) : Withheld events := by
  refine pairwise_of_forall_mem_list fun e he e' _ phase text heq => ?_
  exact (h phase (heq ▸ he)).elim

/-! ### The tool -/

/-- What holds of the tool's state and the events of the turn at every moment. -/
structure SageSound (s : Sage) (events : List Event) : Prop where
  used : ∀ phase, .admitted phase ∈ events → s.turn.used = true
  phases : s.turn.state ≠ .validated ∧ s.turn.state ≠ .plotted
  unready : s.turn.canFinalize = false → validations events = []
  ready : s.turn.canFinalize = true → ∃ r markdown,
    validations events = [(r, s.turn.runId)] ∧ r.isReady s.turn.runId = true ∧
      r.finalMarkdown = some markdown ∧ s.finalMarkdown = some markdown

/-- A turn whose call has just been admitted. -/
structure Admitted (turn : SageTurn) (phase : SagePhase) : Prop where
  used : turn.used = true
  state : turn.state = .prepared ∨ turn.state = .repairing ∨ turn.state = .computed
  phase : phase = .compute ∨ phase = .repair ∨ phase = .validate

variable {phase : SagePhase}

theorem SageTurn.beforeCall_admitted {s turn : SageTurn} (h : s.beforeCall phase = some turn)
    (hs : s.state ≠ .validated ∧ s.state ≠ .plotted) :
    Admitted turn phase ∧ s.canFinalize = false := by
  have hready : s.state ≠ .ready → s.canFinalize = false := by
    intro hne
    simp [SageTurn.canFinalize, hne]
  cases phase with
  | prepare => cases h
  | compute =>
    rw [SageTurn.beforeCall] at h
    split at h
    · rename_i hallowed
      cases h
      refine ⟨⟨rfl, Or.inl rfl, Or.inl rfl⟩, hready ?_⟩
      rcases hallowed.1 with hstate | hstate <;> simp [hstate]
    · cases h
  | repair =>
    rw [SageTurn.beforeCall] at h
    split at h
    · rename_i hallowed
      cases h
      refine ⟨⟨rfl, Or.inr (Or.inl rfl), Or.inr (Or.inl rfl)⟩, hready ?_⟩
      rcases hallowed.1 with hstate | hstate <;> simp [hstate]
    · cases h
  | validate =>
    rw [SageTurn.beforeCall] at h
    split at h
    · rename_i hallowed
      cases h
      refine ⟨⟨rfl, Or.inr (Or.inr hallowed.1), Or.inr (Or.inr rfl)⟩, hready ?_⟩
      simp [hallowed.1]
    · cases h
  | plot =>
    rw [SageTurn.beforeCall] at h
    split at h
    · rename_i hallowed
      rcases hallowed.1 with hstate | hstate
      · exact (hs.1 hstate).elim
      · exact (hs.2 hstate).elim
    · cases h

/-- What an admitted call leaves. -/
structure CallSound (c : SageCall) : Prop where
  used : c.sage.turn.used = true
  phases : c.sage.turn.state ≠ .validated ∧ c.sage.turn.state ≠ .plotted
  inner : ∀ e ∈ c.events, e.Inner
  unready : c.sage.turn.canFinalize = false → validations c.events = []
  ready : c.sage.turn.canFinalize = true → ∃ r markdown,
    validations c.events = [(r, c.sage.turn.runId)] ∧ r.isReady c.sage.turn.runId = true ∧
      r.finalMarkdown = some markdown ∧ c.sage.finalMarkdown = some markdown

/-- A call that does not become ready is sound when all its events are quiet. -/
theorem CallSound.of_quiet {c : SageCall} (hused : c.sage.turn.used = true)
    (hphases : c.sage.turn.state ≠ .validated ∧ c.sage.turn.state ≠ .plotted)
    (hquiet : ∀ e ∈ c.events, e.Quiet) (hunready : c.sage.turn.canFinalize = false) :
    CallSound c where
  used := hused
  phases := hphases
  inner e he := (hquiet e he).inner
  unready _ := validations_quiet hquiet
  ready hready := by
    rw [hunready] at hready
    cases hready

theorem statusEvent_quiet (size : ℕ) (text : Bytes) : ∀ e ∈ statusEvent size text, e.Quiet := by
  intro e he
  unfold statusEvent at he
  split at he
  · rw [mem_singleton.mp he]
    trivial
  · cases he

theorem SageTurn.fail_phases (s : SageTurn) (code : Bytes) :
    (s.fail code).state ≠ .validated ∧ (s.fail code).state ≠ .plotted :=
  ⟨by simp [SageTurn.fail], by simp [SageTurn.fail]⟩

theorem SageTurn.afterResult_unready (s : SageTurn) (phase : SagePhase) (isError : Bool)
    (f : SageFlags) (h : isError = true ∨ phase = .compute ∨ phase = .repair) :
    (s.afterResult phase isError f).state = .computed ∨
      (s.afterResult phase isError f).state = .failed := by
  unfold SageTurn.afterResult
  split
  · split
    · exact Or.inl rfl
    · exact Or.inr rfl
  · rename_i herror
    rcases h with h | h | h
    · exact (herror h).elim
    · rw [h]
      exact Or.inl rfl
    · rw [h]
      exact Or.inl rfl

theorem SageTurn.afterResult_used (s : SageTurn) (phase : SagePhase) (isError : Bool)
    (f : SageFlags) : (s.afterResult phase isError f).used = s.used := by
  unfold SageTurn.afterResult
  split
  · split <;> rfl
  · cases phase <;> simp only [] <;> split_ifs <;> rfl

theorem SageTurn.unready_of_state {s : SageTurn} (h : s.state = .computed ∨ s.state = .failed) :
    (s.state ≠ .validated ∧ s.state ≠ .plotted) ∧ s.canFinalize = false := by
  rcases h with h | h <;> simp [h, SageTurn.canFinalize]

theorem runningStatus_quiet (cfg : SageConfig) (s : SageTurn) :
    ∀ e ∈ runningStatus cfg s, e.Quiet :=
  statusEvent_quiet _ _

theorem completedStatus_quiet (cfg : SageConfig) (s : SageTurn) (state summary : Bytes) :
    ∀ e ∈ completedStatus cfg s state summary, e.Quiet :=
  statusEvent_quiet _ _

variable {cfg : SageConfig} {s : Sage}

theorem sageFailed_sound (hcfg : cfg.authoritativeLoop = true) (hused : s.turn.used = true)
    (phase : SagePhase) (text : Bytes) : CallSound (sageFailed cfg s phase text) := by
  have hstate := s.turn.afterResult_unready phase true .none (Or.inl rfl)
  obtain ⟨hphases, hunready⟩ := SageTurn.unready_of_state hstate
  have hafter := s.turn.afterResult_used phase true .none
  rw [sageFailed, if_pos hcfg]
  refine CallSound.of_quiet ?_ hphases (runningStatus_quiet cfg _) hunready
  exact hafter.trans hused

theorem SageHttpResult.ready_gates {r : SageHttpResult} {runId : Bytes}
    (h : r.isReady runId = true) :
    r.isError = false ∧ r.contractVersion = some (str "sage_result_v2") ∧
      r.runId = some runId ∧ r.flags.all = true ∧ ∃ markdown, r.finalMarkdown = some markdown := by
  simp only [isReady, Bool.and_eq_true, Bool.not_eq_true', decide_eq_true_eq] at h
  obtain ⟨⟨⟨⟨⟨⟨⟨⟨herror, hversion⟩, hrun⟩, -⟩, hpublishable⟩, hauth⟩, hvalid⟩, hreport⟩, hmd⟩ := h
  refine ⟨herror, hversion, hrun, ?_, ?_⟩
  · simp [flags, SageFlags.all, hpublishable, hauth, hvalid, hreport, hmd]
  · cases hmarkdown : r.finalMarkdown with
    | none => simp [hasMarkdown, hmarkdown] at hmd
    | some markdown => exact ⟨markdown, rfl⟩

theorem SageTurn.afterResult_ready (s : SageTurn) {f : SageFlags} (hf : f.all = true) :
    (s.afterResult .validate false f).canFinalize = true ∧
      (s.afterResult .validate false f).state = .ready ∧
      (s.afterResult .validate false f).runId = s.runId := by
  simp only [SageFlags.all, Bool.and_eq_true] at hf
  simp [afterResult, SageFlags.all, hf, canFinalize, setFlags]

theorem authoritativeResponse_sound (hused : s.turn.used = true)
    (hphase : phase = .compute ∨ phase = .repair ∨ phase = .validate) (r : SageHttpResult) :
    CallSound (authoritativeResponse cfg s phase r) := by
  have hafter := s.turn.afterResult_used phase
    (r.isError || !decide (r.contractVersion = some (str "sage_result_v2")) ||
      !decide (r.runId = some s.turn.runId)) r.flags
  have hrunning := runningStatus_quiet cfg s.turn
  simp only [authoritativeResponse]
  by_cases hready : phase = .validate ∧ r.isReady s.turn.runId = true
  · rw [if_pos hready]
    obtain ⟨rfl, hready⟩ := hready
    obtain ⟨herror, hversion, hrun, hflags, markdown, hmarkdown⟩ :=
      SageHttpResult.ready_gates hready
    simp only [herror, hversion, hrun, decide_true, Bool.not_true, Bool.or_false] at hafter ⊢
    obtain ⟨hfinalize, hstate, hrunId⟩ := s.turn.afterResult_ready hflags
    have hcompleted := completedStatus_quiet cfg (s.turn.afterResult .validate false r.flags)
      (str "ready") (str "Report SageMath validato.")
    refine ⟨hafter.trans hused, by simp [hstate], ?_, ?_, ?_⟩
    · intro e he
      rcases mem_append.mp he with he | he
      · rcases mem_append.mp he with he | he
        · exact (hrunning e he).inner
        · rw [mem_singleton.mp he]
          trivial
      · exact (hcompleted e he).inner
    · intro hunready
      rw [hfinalize] at hunready
      cases hunready
    · intro _
      refine ⟨r, markdown, ?_, ?_, hmarkdown, hmarkdown⟩
      · rw [validations_append, validations_append, validations_quiet hrunning,
          validations_quiet hcompleted, hrunId]
        rfl
      · rw [hrunId]
        exact hready
  · rw [if_neg hready]
    by_cases hvalidate : phase = .validate
    · rw [if_pos hvalidate]
      exact CallSound.of_quiet (hafter.trans hused) (SageTurn.fail_phases _ _) hrunning rfl
    · rw [if_neg hvalidate]
      have hcompute : phase = .compute ∨ phase = .repair := by
        rcases hphase with h | h | h
        · exact Or.inl h
        · exact Or.inr h
        · exact (hvalidate h).elim
      have hstate := s.turn.afterResult_unready phase
        (r.isError || !decide (r.contractVersion = some (str "sage_result_v2")) ||
          !decide (r.runId = some s.turn.runId)) r.flags (Or.inr hcompute)
      obtain ⟨hphases, hunready⟩ := SageTurn.unready_of_state hstate
      split
      · refine CallSound.of_quiet (hafter.trans hused) hphases ?_ hunready
        intro e he
        rcases mem_append.mp he with he | he
        · exact hrunning e he
        · exact completedStatus_quiet _ _ _ _ e he
      · exact CallSound.of_quiet (hafter.trans hused) hphases hrunning hunready

theorem sagePost_sound (hcfg : cfg.authoritativeLoop = true) (world : SageWorld)
    (h : Admitted s.turn phase) : CallSound (sagePost cfg world s phase) := by
  unfold sagePost
  split
  · exact CallSound.of_quiet h.used (SageTurn.fail_phases _ _) (fun e he => nomatch he) rfl
  · split
    · -- The quoting failed: the call stays admitted.
      have hstate : (s.turn.state ≠ .validated ∧ s.turn.state ≠ .plotted) ∧
          s.turn.canFinalize = false := by
        rcases h.state with hstate | hstate | hstate <;> simp [hstate, SageTurn.canFinalize]
      exact CallSound.of_quiet h.used hstate.1 (fun e he => nomatch he) hstate.2
    · split
      · exact sageFailed_sound hcfg h.used phase _
      · exact sageFailed_sound hcfg h.used phase _
      · exact authoritativeResponse_sound h.used h.phase _

theorem noteTaskType_admitted (cfg : SageConfig) (taskType : Option Bytes)
    (h : Admitted s.turn phase) : Admitted (noteTaskType cfg taskType s).turn phase := by
  unfold noteTaskType
  split
  · exact ⟨h.used, h.state, h.phase⟩
  · exact h

theorem ensureRunId_admitted (cfg : SageConfig) (nonce : ℕ) (h : Admitted s.turn phase) :
    Admitted (ensureRunId cfg nonce s).1.turn phase := by
  unfold ensureRunId
  split
  · exact h
  · exact ⟨h.used, h.state, h.phase⟩

theorem sageAdmitted_sound (hcfg : cfg.authoritativeLoop = true) (call : ToolCall)
    (world : SageWorld) (h : Admitted s.turn phase) :
    CallSound (sageAdmitted cfg call world s phase) := by
  have hensured := ensureRunId_admitted cfg world.nonce
    (noteTaskType_admitted cfg (toolArgValue call (str "task_type")) h)
  simp only [sageAdmitted]
  split
  · rename_i heq
    rw [heq] at hensured
    exact sagePost_sound hcfg world hensured
  · rename_i heq
    rw [heq] at hensured
    exact CallSound.of_quiet hensured.used (SageTurn.fail_phases _ _) (fun e he => nomatch he) rfl

theorem SageSound.refused (h : SageSound s events) :
    SageSound s (events ++ []) ∧ ∀ e ∈ ([] : List Event), e.Inner := by
  rw [append_nil]
  exact ⟨h, fun e he => nomatch he⟩

section

variable (hcfg : cfg.authoritativeLoop = true)

include hcfg

theorem toolSageViaHttp_sound (call : ToolCall) (world : SageWorld) (h : SageSound s events) :
    SageSound (toolSageViaHttp cfg call world s).sage
        (events ++ (toolSageViaHttp cfg call world s).events) ∧
      ∀ e ∈ (toolSageViaHttp cfg call world s).events, e.Inner := by
  simp only [toolSageViaHttp, hcfg, if_true]
  split
  · exact h.refused
  · exact h.refused
  · split_ifs
    · exact h.refused
    · exact h.refused
    · exact h.refused
    · exact h.refused
    · split
      · exact h.refused
      · rename_i turn hturn
        obtain ⟨hadmitted, hunready⟩ := SageTurn.beforeCall_admitted hturn h.phases
        have hcall := sageAdmitted_sound hcfg call world (s := { s with turn := turn }) hadmitted
        have hbefore := h.unready hunready
        have hvalidations : ∀ phase' (more : List Event),
            validations (events ++ .admitted phase' :: more) = validations more := by
          intro phase' more
          rw [validations_append, hbefore]
          rfl
        refine ⟨⟨fun _ _ => hcall.used, hcall.phases, ?_, ?_⟩, ?_⟩
        · intro hafter
          exact (hvalidations _ _).trans (hcall.unready hafter)
        · intro hafter
          obtain ⟨r, markdown, hv, hready, hmarkdown, hkept⟩ := hcall.ready hafter
          exact ⟨r, markdown, (hvalidations _ _).trans hv, hready, hmarkdown, hkept⟩
        · intro e he
          rcases mem_cons.mp he with rfl | he
          · trivial
          · exact hcall.inner e he

theorem executeToolCall_sound (f : Finish) (i : ℕ) (call : ToolCall) (h : SageSound s events) :
    SageSound (executeToolCall cfg f i call s).sage
        (events ++ (executeToolCall cfg f i call s).events) ∧
      ∀ e ∈ (executeToolCall cfg f i call s).events, e.Inner := by
  unfold executeToolCall
  split
  · exact toolSageViaHttp_sound hcfg call f.sage h
  · exact h.refused

theorem executeLoop_sound (f : Finish) (calls : List ToolCall) (i : ℕ) {e : Executed}
    (h : SageSound e.sage (events ++ e.events)) (hinner : ∀ x ∈ e.events, x.Inner) :
    SageSound (executeLoop cfg f i calls e).sage
        (events ++ (executeLoop cfg f i calls e).events) ∧
      ∀ x ∈ (executeLoop cfg f i calls e).events, x.Inner := by
  induction calls generalizing i e with
  | nil => exact ⟨h, hinner⟩
  | cons call rest ih =>
    obtain ⟨hcall, hcallInner⟩ := executeToolCall_sound hcfg f i call h
    refine ih (i + 1) ?_ ?_
    · rw [← append_assoc]
      exact hcall
    · intro x hx
      rcases mem_append.mp hx with hx | hx
      · exact hinner x hx
      · exact hcallInner x hx

theorem executeToolCalls_sound (f : Finish) (calls : List ToolCall) (h : SageSound s events) :
    SageSound (executeToolCalls cfg f calls s).sage
        (events ++ (executeToolCalls cfg f calls s).events) ∧
      ∀ x ∈ (executeToolCalls cfg f calls s).events, x.Inner := by
  have hloop := executeLoop_sound hcfg f calls 0 (e := ⟨s, [], []⟩) h.refused.1 h.refused.2
  unfold executeToolCalls
  split
  · exact h.refused
  · simp only
    split
    · exact hloop
    · exact hloop

end

/-! ### The turn -/

/-- Nothing is published yet. -/
structure Unpublished (w : TurnWorker) : Prop where
  sage : SageSound w.sage w.out
  withheld : Withheld w.out
  finals : finals w.out = []

def Published (w : TurnWorker) : Prop :=
  Withheld w.out ∧ (finals w.out = [] ∨ PublishesReport w.sage.turn.runId w.out)

/-- In front of a round no report is ready. -/
def Live (w : TurnWorker) : Prop := Unpublished w ∧ w.sage.turn.canFinalize = false

variable {σ : Type} {env : TurnEnv} {w w' : TurnWorker}

theorem Unpublished.published (h : Unpublished w) : Published w := ⟨h.withheld, Or.inl h.finals⟩

theorem SageSound.append {events more : List Event} (h : SageSound s events)
    (hadmitted : ∀ phase, .admitted phase ∉ more) (hmore : validations more = []) :
    SageSound s (events ++ more) := by
  have hsame : validations (events ++ more) = validations events := by
    rw [validations_append, hmore, append_nil]
  refine ⟨?_, h.phases, ?_, ?_⟩
  · intro phase hphase
    rcases mem_append.mp hphase with hphase | hphase
    · exact h.used phase hphase
    · exact (hadmitted phase hphase).elim
  · rw [hsame]
    exact h.unready
  · rw [hsame]
    exact h.ready

theorem Unpublished.of_same (h : Unpublished w) (hturn : w'.sage.turn = w.sage.turn)
    (hmarkdown : w'.sage.finalMarkdown = w.sage.finalMarkdown) (hout : w'.out = w.out) :
    Unpublished w' := by
  refine ⟨⟨?_, ?_, ?_, ?_⟩, ?_, ?_⟩
  · rw [hturn, hout]
    exact h.sage.used
  · rw [hturn]
    exact h.sage.phases
  · rw [hturn, hout]
    exact h.sage.unready
  · rw [hturn, hout, hmarkdown]
    exact h.sage.ready
  · rw [hout]
    exact h.withheld
  · rw [hout]
    exact h.finals

theorem Unpublished.publish (h : Unpublished w) (hquiet : ∀ e ∈ events, e.Quiet) :
    Unpublished (w.publish events) := by
  refine ⟨h.sage.append ?_ (validations_quiet hquiet), h.withheld.append ?_, ?_⟩
  · exact fun phase hphase => hquiet _ hphase
  · exact fun text htext => hquiet _ htext
  · rw [TurnWorker.publish_out, finals_append, h.finals,
      finals_inner fun e he => (hquiet e he).inner]
    rfl

theorem Unpublished.status (h : Unpublished w) (text : Bytes) :
    Unpublished (w.publish [.status text]) := by
  refine h.publish fun e he => ?_
  rw [mem_singleton.mp he]
  trivial

theorem Unpublished.render (h : Unpublished w) (hused : w.sage.turn.used = false)
    (writes : List Bytes) : Unpublished (w.publish (writes.map .rendered)) := by
  have hfree : ∀ phase, .admitted phase ∉ w.out ++ writes.map Event.rendered := by
    intro phase hphase
    rcases mem_append.mp hphase with hphase | hphase
    · have hcalled := h.sage.used phase hphase
      rw [hused] at hcalled
      cases hcalled
    · obtain ⟨text, -, htext⟩ := mem_map.mp hphase
      cases htext
  have hvalidations : validations (writes.map .rendered) = [] := by
    rw [validations, filterMap_map, filterMap_eq_nil_iff]
    exact fun text _ => rfl
  have hfinals : Agent.finals (writes.map .rendered) = [] := by
    rw [Agent.finals, filterMap_map, filterMap_eq_nil_iff]
    exact fun text _ => rfl
  refine ⟨h.sage.append (fun phase hphase => hfree phase (mem_append_right _ hphase))
    hvalidations, withheld_of_free hfree, ?_⟩
  rw [TurnWorker.publish_out, finals_append, h.finals, hfinals]
  rfl

theorem Unpublished.compactWorker (h : Unpublished w) (env : TurnEnv) (r : Rebuild) :
    Unpublished (compactWorker env r w).1 ∧
      (compactWorker env r w).1.sage.turn = w.sage.turn := by
  have hsummary : Unpublished (w.publish [.summary (r.summary.getD [])]) := by
    refine h.publish fun e he => ?_
    rw [mem_singleton.mp he]
    trivial
  unfold Agent.compactWorker
  split
  · exact ⟨h, rfl⟩
  · split
    · exact ⟨hsummary.of_same rfl rfl rfl, rfl⟩
    · exact ⟨hsummary, rfl⟩

theorem Live.of_same (h : Live w) (hturn : w'.sage.turn = w.sage.turn)
    (hmarkdown : w'.sage.finalMarkdown = w.sage.finalMarkdown) (hout : w'.out = w.out) : Live w' :=
  ⟨h.1.of_same hturn hmarkdown hout, by rw [hturn]; exact h.2⟩

theorem Live.status (h : Live w) (text : Bytes) : Live (w.publish [.status text]) :=
  ⟨h.1.status text, h.2⟩

theorem Live.append (h : Live w) (env : TurnEnv) (role : Role) (text : Bytes) :
    Live (w.append env role text) :=
  h.of_same rfl rfl rfl

theorem Live.pushEos (h : Live w) (env : TurnEnv) : Live (w.pushEos env) := h.of_same rfl rfl rfl

theorem Live.recordToolResult (h : Live w) (env : TurnEnv) (text : Bytes) :
    Live (w.recordToolResult env text) :=
  h.of_same rfl rfl rfl

theorem Live.note (h : Live w) (item : Item) : Live (w.note item) := h.of_same rfl rfl rfl

theorem Live.published (h : Live w) : Published w := h.1.published

theorem Live.evictIfNeeded (h : Live w) (env : TurnEnv) (r : Rebuild) :
    Live (evictIfNeeded env r w) := by
  unfold Agent.evictIfNeeded Agent.evictWorker
  split_ifs
  · exact h.of_same rfl rfl rfl
  · exact h.of_same rfl rfl rfl
  · exact h

theorem Live.compactIfNeeded (h : Live w) (env : TurnEnv) (r : Rebuild) :
    Live (compactIfNeeded env r w).1 := by
  have hevict : Live (Agent.evictIfNeeded env r w) := h.evictIfNeeded env r
  unfold Agent.compactIfNeeded
  split
  · obtain ⟨hcompact, hturn⟩ := hevict.1.compactWorker env r
    exact ⟨hcompact, by rw [hturn]; exact hevict.2⟩
  · exact hevict

theorem Live.maybeAppendReminder (h : Live w) : Live (maybeAppendReminder env w) := by
  have hpush : Live ((w.publish
      [.status (str "Re-injecting system prompt reminder...")]).push (systemReminder env)
        (.control (systemReminder env))) :=
    (h.status _).of_same rfl rfl rfl
  simp only [Agent.maybeAppendReminder]
  split
  · exact h.of_same rfl rfl rfl
  · split
    · exact h
    · split
      · exact hpush.of_same rfl rfl rfl
      · exact hpush.of_same rfl rfl rfl

theorem beginTurn_live (hout : w.out = []) (user date : Bytes) (r : Rebuild) :
    (beginTurn env user date r w).Holds Live Published := by
  have hreset : Live (resetSage w) := by
    refine ⟨⟨⟨?_, ?_, ?_, ?_⟩, ?_, ?_⟩, rfl⟩
    · intro phase hphase
      change _ ∈ w.out at hphase
      rw [hout] at hphase
      cases hphase
    · exact ⟨nofun, nofun⟩
    · intro _
      change validations w.out = []
      rw [hout]
      rfl
    · intro hready
      cases hready
    · change Withheld w.out
      rw [hout]
      exact List.Pairwise.nil
    · change finals w.out = []
      rw [hout]
      rfl
  have hcompact := hreset.compactIfNeeded env r
  unfold beginTurn
  split
  · rename_i heq
    rw [heq] at hcompact
    exact hcompact.published
  · rename_i w' heq
    rw [heq] at hcompact
    have hdate : Live (maybeAppendDatetime env date w') := by
      unfold maybeAppendDatetime
      split
      · exact hcompact
      · exact hcompact.of_same rfl rfl rfl
    exact hdate.of_same rfl rfl rfl

/-- Output is deferred in every round behind an admitted call. -/
def Deferred (deferred : Option Bytes) (w : TurnWorker) : Prop :=
  deferred = none → w.sage.turn.used = false

theorem roundHead_live (env : TurnEnv) (sm : Stream σ) (toolRound : ℕ) (r : Rebuild)
    (sync : SyncResult) (h : Live w) :
    Meets (roundHead env sm toolRound r sync w) (fun x => Live x.1 ∧ Deferred x.2.deferred x.1)
      (Next.Holds Live Published) := by
  refine Meets.ite (fun _ => ?_) (fun _ => ?_)
  · exact (h.append env .tool tooManyRounds).published
  · have hcontinue : Live (continueRound env toolRound r w).1 := by
      unfold continueRound
      split
      · exact h.compactIfNeeded env r
      · exact h
    split
    · rename_i heq
      rw [heq] at hcontinue
      exact hcontinue.published
    · rename_i w' heq
      rw [heq] at hcontinue
      have hopen : Live (openRound env w') := hcontinue.maybeAppendReminder.of_same rfl rfl rfl
      simp only
      cases syncTranscript env (openRound env w') sync with
      | interrupted =>
        exact ((hopen.status _).pushEos env).published
      | failed => exact hopen.published
      | ok =>
        refine Meets.ite (fun _ => (hopen.status _).published) (fun _ => ⟨hopen, ?_⟩)
        intro hnone
        simpa [startRound, hopen.2] using hnone

variable {l : Locals σ}

theorem rendererWrites_live (h : Live w) (hdeferred : Deferred l.deferred w) (writes : List Bytes) :
    Live (rendererWrites w l.deferred writes).1 ∧
      (rendererWrites w l.deferred writes).1.sage = w.sage ∧
      ((rendererWrites w l.deferred writes).2 = none → l.deferred = none) := by
  cases hl : l.deferred with
  | none => exact ⟨⟨h.1.render (hdeferred hl) writes, h.2⟩, rfl, fun _ => rfl⟩
  | some buffer => exact ⟨h, rfl, fun hnone => nomatch hnone⟩

theorem acceptToken_live (env : TurnEnv) (sm : Stream σ) (token : ℤ) (h : Live w)
    (hdeferred : Deferred l.deferred w) :
    Live (acceptToken env sm token w l).1 ∧
      Deferred (acceptToken env sm token w l).2.deferred (acceptToken env sm token w l).1 := by
  have hpush : Live (w.push [token] (.token token)) := h.of_same rfl rfl rfl
  obtain ⟨hlive, hsage, hnone⟩ := rendererWrites_live (l := l) hpush hdeferred
    (sm.text l.stream (tokenText env.base.vocab token)).2
  refine ⟨hlive, fun hl => ?_⟩
  change (rendererWrites (w.push [token] (.token token)) l.deferred
    (sm.text l.stream (tokenText env.base.vocab token)).2).1.sage.turn.used = false
  rw [hsage]
  exact hdeferred (hnone hl)

variable {sm : Stream σ}

theorem sampleStep_live (env : TurnEnv) (sm : Stream σ) (interrupt : Bool) (token : ℤ)
    (evalOk : ℕ → Bool) (h : Live w) (hdeferred : Deferred l.deferred w) :
    Meets (sampleStep env sm interrupt token evalOk w l)
      (fun x => Live x.1 ∧ Deferred x.2.1.deferred x.1) (Next.Holds Live Published) :=
  sampleStep_meets (fun w deferred => Live w ∧ Deferred deferred w) ⟨h, hdeferred⟩
    (fun t _ _ _ h => acceptToken_live env sm t h.1 h.2) (fun _ _ => h.published)
    (fun _ _ _ _ h => h.1.published)

/-! ### The end of a round -/

/-- Whatever leaves a round keeps the promise. -/
abbrev Keeps : Next → Prop := Next.Holds Live Published

theorem sageBlock_live (v : Verdict) (h : Live w) : Meets (sageBlock env v w) Live Keeps := by
  have hturn : ∀ turn : SageTurn, turn.used = w.sage.turn.used →
      (turn.state ≠ .validated ∧ turn.state ≠ .plotted) → turn.canFinalize = false →
      Live (w.setTurn turn) := by
    intro turn hused hphases hunready
    refine ⟨⟨⟨?_, hphases, ?_, ?_⟩, h.1.withheld, h.1.finals⟩, hunready⟩
    · intro phase hphase
      exact hused.trans (h.1.sage.used phase hphase)
    · intro _
      exact h.1.sage.unready h.2
    · intro hready
      change turn.canFinalize = true at hready
      rw [hunready] at hready
      cases hready
  refine Meets.ite (fun _ => ?_) (fun _ => h)
  refine Meets.ite (fun _ => ?_) (fun _ => ?_)
  · have hblocked : Live (w.setTurn w.sage.turn.block) := hturn _ rfl h.1.sage.phases h.2
    exact (hblocked.recordToolResult env _).note .continued
  · have hfailed := hturn (w.sage.turn.block.fail (str "SAGE_FINALIZATION_BLOCKED")) rfl
      (SageTurn.fail_phases _ _) rfl
    exact ((hfailed.recordToolResult env _).status _).published

theorem proseCheck_live (v : Verdict) (h : Live w) : Meets (proseCheck env v w) Live Keeps := by
  refine Meets.ite (fun _ => ?_) (fun _ => h)
  refine Meets.ite (fun _ => h.of_same rfl rfl rfl) (fun _ => ?_)
  refine Meets.ite (fun _ => ?_) (fun _ => ?_)
  · exact ((h.status _).append env .tool defensiveLoop).published
  · have hcounted : Live { w with
        consecutiveDefensive :=
          if isDefensiveText v.genText then w.consecutiveDefensive + 1 else 0 } :=
      h.of_same rfl rfl rfl
    refine (hcounted.1.publish fun e he => ?_).published
    split at he
    · rw [mem_singleton.mp he]
      trivial
    · cases he

theorem Unpublished.recordToolResult (h : Unpublished w) (env : TurnEnv) (text : Bytes) :
    Unpublished (w.recordToolResult env text) :=
  h.of_same rfl rfl rfl

theorem Unpublished.append (h : Unpublished w) (env : TurnEnv) (role : Role) (text : Bytes) :
    Unpublished (w.append env role text) :=
  h.of_same rfl rfl rfl

theorem roundResult_unpublished (hcfg : env.sage.authoritativeLoop = true) (f : Finish)
    (v : Verdict) (h : Unpublished w) : Unpublished (roundResult env f v w).1 := by
  have hfailed : Unpublished { w with consecutiveMalformed := w.consecutiveMalformed + 1 } :=
    h.of_same rfl rfl rfl
  by_cases hearly : v.early = true
  · simp only [roundResult, hearly, if_true]
    exact hfailed
  by_cases hdegenerate : v.degenerate = true
  · simp only [roundResult, hearly, hdegenerate, if_true]
    exact hfailed.status _
  by_cases hmalformed : v.malformed = true
  · simp only [roundResult, hearly, hdegenerate, hmalformed, if_true]
    exact hfailed
  obtain ⟨hsage, hinner⟩ := executeToolCalls_sound hcfg f v.calls h.sage
  simp only [roundResult, hearly, hdegenerate, hmalformed]
  refine ⟨hsage, h.withheld.append fun text htext => hinner _ htext, ?_⟩
  change finals (w.out ++ (executeToolCalls env.sage f v.calls w.sage).events) = []
  rw [finals_append, h.finals, finals_inner hinner]
  rfl

theorem recordResult_unpublished (f : Finish) (result : Bytes) (h : Unpublished w) :
    Meets (recordResult env f result w) (fun x => Unpublished x.1) Keeps := by
  have hcompact := h.compactWorker env f.rebuild
  refine Meets.ite (fun _ => h.recordToolResult env _) (fun _ => ?_)
  split
  · rename_i heq
    rw [heq] at hcompact
    exact hcompact.1.published
  · rename_i heq
    rw [heq] at hcompact
    refine Meets.ite (fun _ => hcompact.1.recordToolResult env _) (fun _ => ?_)
    exact Meets.ite (fun _ => hcompact.1.recordToolResult env _) (fun _ => hcompact.1.published)

theorem sageGuard_unpublished (f : Finish) (v : Verdict) (h : Unpublished w) :
    Meets (sageGuard env f v w) Unpublished Keeps := by
  refine Meets.ite (fun _ => ?_) (fun _ => h.of_same rfl rfl rfl)
  have hcounted : Unpublished { w with sage := w.sage.counted f.now } := h.of_same rfl rfl rfl
  simp only
  split
  · exact ((hcounted.status _).append env .tool _).published
  · exact hcounted

theorem publishFinal_live (h : Unpublished w) : Meets (publishFinal env w) Live Keeps := by
  have hreport : w.sage.turn.canFinalize = true → ∃ r markdown,
      validations w.out = [(r, w.sage.turn.runId)] ∧ r.isReady w.sage.turn.runId = true ∧
        r.finalMarkdown = some markdown ∧ w.sage.finalMarkdown = some markdown ∧
        markdown ≠ [] := by
    intro hready
    obtain ⟨r, markdown, hv, hr, hmarkdown, hkept⟩ := h.sage.ready hready
    refine ⟨r, markdown, hv, hr, hmarkdown, hkept, ?_⟩
    rintro rfl
    simp [SageHttpResult.isReady, SageHttpResult.hasMarkdown, hmarkdown] at hr
  have hunready : (w.sage.finalMarkdown = none ∨ w.sage.finalMarkdown = some []) → Live w := by
    intro hnone
    refine ⟨h, ?_⟩
    by_contra hready
    obtain ⟨r, markdown, -, -, -, hkept, hne⟩ := hreport (by simpa using hready)
    rcases hnone with hnone | hnone
    · rw [hnone] at hkept
      cases hkept
    · rw [hnone] at hkept
      exact hne (Option.some.inj hkept).symm
  unfold publishFinal
  split
  · rename_i hnone
    exact hunready (Or.inl hnone)
  · rename_i hnone
    exact hunready (Or.inr hnone)
  · rename_i markdown hmarkdown _
    refine Meets.ite (fun hready => ?_) (fun hready => ⟨h, Bool.eq_false_iff.mpr hready⟩)
    obtain ⟨r, markdown', hv, hr, hrmarkdown, hkept, -⟩ := hreport hready
    refine ⟨?_, Or.inr ⟨w.out, r, markdown, rfl, h.finals, hv, hr, ?_⟩⟩
    · refine h.withheld.append fun text htext => ?_
      cases mem_singleton.mp htext
    · rw [hrmarkdown, ← hkept]
      assumption

theorem malformedGuard_live (h : Live w) : Meets (malformedGuard env w) Live Keeps := by
  exact Meets.ite (fun _ => ((h.status _).append env .tool malformedLoop).published) (fun _ => h)

theorem countCalls_live (call : ToolCall) (result : Bytes) (h : Live w) :
    Live (countCalls call result w) := by
  have hrecord : Live (countIdentical call w) := by
    unfold countIdentical
    split
    · exact h.of_same rfl rfl rfl
    · exact h.of_same rfl rfl rfl
  simp only [countCalls]
  split_ifs
  · exact hrecord.of_same rfl rfl rfl
  · exact hrecord.of_same rfl rfl rfl
  · exact hrecord.of_same rfl rfl rfl

theorem callGuard_live (f : Finish) (v : Verdict) (result : Bytes) (h : Live w) :
    Meets (callGuard env f v result w) Live Keeps := by
  unfold callGuard
  split
  · exact h
  · rename_i call rest _
    have hcount := countCalls_live call result h
    refine Meets.ite (fun _ => ?_) (fun _ => hcount)
    refine Meets.ite (fun _ => ((hcount.status _).append env .tool _).published) (fun _ => ?_)
    refine Meets.ite (fun _ => ?_) (fun _ => ((hcount.status _).append env .tool _).published)
    have hreset : Live (resetGuards (countCalls call result w)) := hcount.of_same rfl rfl rfl
    exact hreset.status _

theorem drainQueuedUser_live (queued : Option Bytes) (h : Live w) :
    Live (drainQueuedUser env queued w) := by
  unfold drainQueuedUser
  split
  · exact h
  · exact h
  · exact h.append env .user _

theorem afterMessage_live (hcfg : env.sage.authoritativeLoop = true) (f : Finish) (v : Verdict)
    (h : Live w) : Meets (afterMessage env f v w) Live Keeps := by
  refine (sageBlock_live v h).bind fun w₁ h₁ => ?_
  refine (proseCheck_live v h₁).bind fun w₂ h₂ => ?_
  have hresult := roundResult_unpublished hcfg f v h₂.1
  refine (recordResult_unpublished f _ hresult).bind fun x hx => ?_
  refine (sageGuard_unpublished f v hx).bind fun w₃ h₃ => ?_
  refine (publishFinal_live h₃).bind fun w₄ h₄ => ?_
  refine (malformedGuard_live h₄).bind fun w₅ h₅ => ?_
  refine (callGuard_live f v x.2 h₅).bind fun w₆ h₆ => ?_
  exact drainQueuedUser_live f.queuedUser (h₆.note .continued)

theorem roundEnd_live (hcfg : env.sage.authoritativeLoop = true) (f : Finish) (h : Live w)
    (hdeferred : Deferred l.deferred w) : Keeps (roundEnd env sm f l w) := by
  have hfinish := (rendererWrites_live h hdeferred (sm.finish l.stream).2).1.pushEos env
  exact roundEnd_holds (hfinish.status _).published fun _ => afterMessage_live hcfg f _ hfinish

/-! ### Runs of a turn -/

abbrev StateSafe : TurnState σ → Prop :=
  TurnState.Holds (fun w => w.out = []) Live (fun w deferred => Live w ∧ Deferred deferred w) Published

theorem turnStep_safe (hcfg : env.sage.authoritativeLoop = true) {st : TurnState σ}
    (input : Input) (h : StateSafe st) : StateSafe (turnStep env sm st input) :=
  turnStep_holds h (fun user date r hidle => beginTurn_live hidle user date r)
    (fun toolRound r sync _ _ hw => roundHead_live env sm toolRound r sync hw)
    (fun _ _ interrupt token evalOk _ _ hw =>
      sampleStep_live env sm interrupt token evalOk hw.1 hw.2)
    (fun _ _ f _ _ hw => roundEnd_live hcfg f hw.1 hw.2)

/-- At every moment of a turn no text generated behind the first admitted call has been
rendered. -/
theorem StateSafe.withheld {st : TurnState σ} (h : StateSafe st) : Withheld st.worker.out := by
  unfold StateSafe TurnState.Holds at h
  split at h
  · rw [h]
    exact List.Pairwise.nil
  · exact h.1.withheld
  · exact h.1.1.withheld
  · exact h.1.1.withheld
  · exact h.1

theorem sage_turn_publishes_validated {env : TurnEnv} {sm : Stream σ} {w : TurnWorker}
    {st : TurnState σ} (hcfg : env.sage.authoritativeLoop = true) (hstart : w.out = [])
    (hrun : Run.Free (fun st input st' => turnStep env sm st input = st') ⟨.idle, w⟩ st) :
    Withheld st.worker.out ∧
      ∀ rc, st.control = .returned rc →
        finals st.worker.out = [] ∨
          PublishesReport st.worker.sage.turn.runId st.worker.out := by
  have hstep : ∀ (st : TurnState σ) input st', StateSafe st →
      turnStep env sm st input = st' → True → StateSafe st' := by
    intro st input st' h hnext _
    rw [← hnext]
    exact turnStep_safe hcfg input h
  have hidle : StateSafe (⟨.idle, w⟩ : TurnState σ) := hstart
  have hsafe := hrun.invariant hstep hidle
  refine ⟨hsafe.withheld, fun rc hreturned => ?_⟩
  unfold StateSafe TurnState.Holds at hsafe
  rw [hreturned] at hsafe
  exact hsafe.2

/-! ### A turn that publishes a report -/

def readySage : SageConfig where
  prompt := some []
  policyRevision := str "1"
  authoritativeLoop := true
  frontendPort := 3000
  sessionSha := []
  parse runId :=
    { content := some []
      contractVersion := some (str "sage_result_v2")
      runId := some runId
      state := some (str "ready")
      finalMarkdown := some (str "x = 1")
      isError := false
      publishable := true
      authoritative := true
      validationPassed := true
      reportReady := true }

def phaseCall (phase : Bytes) : ToolCall :=
  ⟨some sageName, [(str "code", str "1"), (str "phase", phase)]⟩

def phaseFinish : Finish :=
  { callFinish with sage :=
      ⟨0, true, true, fun _ => .exited 0 (some (str "sage-000000000000-1-0"))⟩ }

/-- The model computes, validates and has the report published. -/
def reportInputs : List Input :=
  [.begin [] [] noRebuild, .round noRebuild .ok, .sample false 7 fun _ => true, .finish phaseFinish,
    .round noRebuild .ok, .sample false 8 fun _ => true, .finish phaseFinish]

def reportTurn : TurnState Bytes :=
  reportInputs.foldl (turnStep (callEnv readySage) (callStream phaseCall)) ⟨.idle, idleWorker⟩

theorem sage_turn_publishes_validated_report :
    finals reportTurn.worker.out = [str "x = 1"] ∧ Withheld reportTurn.worker.out ∧
      PublishesReport reportTurn.worker.sage.turn.runId reportTurn.worker.out := by
  have hfinals : finals reportTurn.worker.out = [str "x = 1"] := by decide +kernel
  have hreturned : reportTurn.control = .returned 0 := Control.eq_returned (by decide +kernel)
  have hrun : Run.Each (turnStep (callEnv readySage) (callStream phaseCall)) (fun _ _ => True)
      ⟨.idle, idleWorker⟩ reportInputs := by simp [Run.Each, reportInputs]
  obtain ⟨hwithheld, hpublished⟩ := sage_turn_publishes_validated rfl rfl hrun.guarded
  refine ⟨hfinals, hwithheld, (hpublished 0 hreturned).resolve_left fun hnone => ?_⟩
  exact cons_ne_nil _ _ (hfinals.symm.trans hnone)

end Ds4Studio.Agent
