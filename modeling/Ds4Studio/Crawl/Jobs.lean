import Ds4Studio.Crawl.Runner
import Ds4Studio.Lib.EventLog
import Ds4Studio.Lib.Run

/-!
Jobs and their streams over whole runs of the service. A job moves as declared, ends in
the state its pages call for, and a stream hands on all its events before it says that
it is done, unless a task is cancelled too early, no page succeeds, the manifest has no
UTF-8, or the job ends while a stream hands rows on.
-/

namespace Ds4Studio.Crawl

open EventLog Function List Option

/-! ### What is promised -/

/-- Moves along the declared transitions. -/
def Reaches : JobState → JobState → Prop := Relation.ReflTransGen fun a b => b ∈ transitions a

/-- The state that the pages of a job call for. -/
def summary (pages : List Page) : JobState :=
  if ∀ page ∈ pages, page.state = .succeeded then .succeeded
  else if ∃ page ∈ pages, page.state = .succeeded then .partiallySucceeded
  else .failed

/-- A job that is over: all its pages are there and its state says how they went, or it was
to be cancelled. -/
def Summarised (asked : Bool) (job : Job) : Prop :=
  job.state.terminal = true ∧
    if job.state = .cancelled then asked = true
    else job.pages.length = job.urls.length ∧ job.state = summary job.pages

/-- A stream hands on the events in order, and says that it is done behind the last. -/
structure Delivered (job : Job) (client : Client) : Prop where
  numbered : Numbered Prod.fst job.events
  received : client.received <+: job.events
  done : client.phase = .done → job.state.terminal = true ∧ client.received = job.events

/-- A step of the stream of one client. -/
def StreamStep (key : ℕ) (s t : Service) : Prop := Step s (.poll key) t ∨ Step s (.resume key) t

/-- Steps of its stream alone bring a client all events and the end. -/
def Finishes (key : ℕ) (s : Service) (job : Job) : Prop :=
  ∃ t client, Relation.ReflTransGen (StreamStep key) s t ∧ t.clients key = some client ∧
    client.phase = .done ∧ client.received = job.events

/-! ### The condition -/

def Client.isHanding (client : Client) : Bool :=
  match client.phase with
  | .handing _ _ => true
  | _ => false

/-- The job once the outcome of a crawl is stored. -/
def Job.stored (job : Job) (outcome : CrawlOutcome) (url : String) : Job :=
  { job with pages := job.pages ++ ((outcome.page url).map Prod.fst).toList }

/-- The condition on a step:

* no task is cancelled, by a request or by closing, before its first step,
* no job ends while one of its streams is between the rows it has fetched,
* of the pages of a job that is not cancelled some succeed and the manifest holds no
  surrogate, or none succeeds and the manifest holds one. -/
def Orderly (s : Service) : Action → Prop
  | .cancel id => ∀ run, s.runs id = some run → run.tracked = true → run.task ≠ .created
  | .close => ∀ id run, s.runs id = some run → run.tracked = true → run.task ≠ .created
  | .crawled id outcome => ∀ run idx url allSucceeded, s.runs id = some run →
      run.task = .crawling idx url allSucceeded →
      s.cancelRequests id = true ∨ outcome = .cancelled ∨ idx + 1 = run.job.urls.length →
      (∀ key client, s.clients key = some client → client.jobId = id →
        client.isHanding = false) ∧
      (s.cancelRequests id = false → outcome ≠ .cancelled →
        (((run.job.stored outcome url).manifest allSucceeded).encodable = true ↔
          ∃ page ∈ (run.job.stored outcome url).pages, page.state = .succeeded))
  | _ => True

/-! ### Events -/

variable {job : Job}

theorem numbered_appendEvent (h : Numbered Prod.fst job.events) (event : Event) :
    Numbered Prod.fst (job.appendEvent event).events := by
  apply h.concat
  exact congrArg (· + 1) h.foldr_max

theorem eventsAfter_eq_drop (h : Numbered Prod.fst job.events) (lastId : ℕ) :
    job.eventsAfter lastId = job.events.drop lastId := by
  rw [← h.behind_eq_drop lastId]
  exact h.insertionSort_eq filter_sublist

/-! ### The coroutine -/

theorem Reaches.of_terminal {a b : JobState} (h : Reaches a b) (ha : a.terminal = true) :
    b = a := by
  induction h with
  | refl => rfl
  | tail _ hlast ih =>
    rw [ih] at hlast
    revert hlast ha
    cases a <;> simp [transitions, JobState.terminal]

theorem Reaches.of_transition (job : Job) (move : Move) :
    Reaches job.state (job.transition move).1.state := by
  unfold Job.transition
  split
  · rename_i hstate
    exact Relation.ReflTransGen.single (hstate ▸ move.declared)
  · exact Relation.ReflTransGen.refl

@[simp] theorem transition_urls (job : Job) (move : Move) :
    (job.transition move).1.urls = job.urls := by
  unfold Job.transition
  split <;> rfl

@[simp] theorem transition_events (job : Job) (move : Move) :
    (job.transition move).1.events = job.events := by
  unfold Job.transition
  split <;> rfl

/-- Where a coroutine stands: what it has stored so far, or the summary at its end. -/
def Stage (asked interrupted : Bool) (job : Job) : Task → Prop
  | .created => job.state = .queued ∧ job.pages = [] ∧ job.events = [] ∧ interrupted = false
  | .crawling idx url allSucceeded =>
      job.state = .running ∧ job.pages.length = idx ∧ job.urls[idx]? = some url ∧
        (allSucceeded = true ↔ ∀ page ∈ job.pages, page.state = .succeeded)
  | .done => Summarised asked job

variable {interrupted : Bool}

theorem Stage.terminal_iff {asked : Bool} {task : Task} (h : Stage asked interrupted job task) :
    job.state.terminal = true ↔ task = .done := by
  cases task with
  | created => simp [h.1, JobState.terminal]
  | crawling => simp [h.1, JobState.terminal]
  | done => simp [h.1]

/-- What a coroutine does from one await to the next. -/
structure TurnOk (asked interrupted : Bool) (job : Job) (turn : Turn) : Prop where
  moves : Reaches job.state turn.job.state
  urls : turn.job.urls = job.urls
  events : job.events <+: turn.job.events
  numbered : Numbered Prod.fst turn.job.events
  requested : turn.requested = true → asked = true
  stage : Stage asked interrupted turn.job turn.task

theorem TurnOk.after {asked : Bool} {job job' : Job} {turn : Turn}
    (h : TurnOk asked interrupted job' turn) (hmoves : Reaches job.state job'.state)
    (hurls : job'.urls = job.urls) (hevents : job.events <+: job'.events) :
    TurnOk asked interrupted job turn where
  moves := hmoves.trans h.moves
  urls := h.urls.trans hurls
  events := hevents.trans h.events
  numbered := h.numbered
  requested := h.requested
  stage := h.stage

theorem summarised_cancelled (hstate : job.state = .running) :
    Summarised true (job.transition runningCancelled).1 := by
  simp [Summarised, Job.transition, runningCancelled, hstate, JobState.terminal]

variable {allSucceeded : Bool}

theorem commitPages_summarised (asked : Bool)
    (hpages : job.pages.length = job.urls.length) (hurls : job.urls ≠ [])
    (hall : allSucceeded = true ↔ ∀ page ∈ job.pages, page.state = .succeeded)
    (hencodable : (job.manifest allSucceeded).encodable = true ↔
      ∃ page ∈ job.pages, page.state = .succeeded) :
    Summarised asked (commitPages allSucceeded job) := by
  have hne : job.pages ≠ [] := by
    intro hnil
    rw [hnil] at hpages
    exact hurls (length_eq_zero_iff.mp hpages.symm)
  unfold commitPages
  split
  · rename_i hwritten
    have hsome := hencodable.mp hwritten
    cases allSucceeded with
    | true =>
      have hevery := hall.mp rfl
      simp [Summarised, Job.commitResult, JobState.terminal, hpages, summary, if_pos hevery]
    | false =>
      have hevery : ¬ ∀ page ∈ job.pages, page.state = .succeeded := fun h => by simpa using hall.mpr h
      simp [Summarised, Job.commitResult, JobState.terminal, hpages, summary, if_neg hevery,
        if_pos hsome]
  · rename_i hwritten
    have hnone : ¬ ∃ page ∈ job.pages, page.state = .succeeded := fun h => hwritten (hencodable.mpr h)
    have hevery : ¬ ∀ page ∈ job.pages, page.state = .succeeded := by
      intro h
      obtain ⟨page, hpage⟩ := exists_mem_of_ne_nil _ hne
      exact hnone ⟨page, hpage, h page hpage⟩
    have hsummary : summary job.pages = .failed := by rw [summary, if_neg hevery, if_neg hnone]
    simp [Summarised, Job.commitResult, Job.appendEvent, JobState.terminal, hpages, hsummary]

theorem commitPages_moves (hstate : job.state = .running) :
    Reaches job.state (commitPages allSucceeded job).state := by
  apply Relation.ReflTransGen.single
  rw [hstate]
  unfold commitPages
  split
  · cases allSucceeded <;> simp [Job.commitResult, transitions]
  · simp [Job.commitResult, transitions]

theorem commitPages_events (allSucceeded : Bool) (h : Numbered Prod.fst job.events) :
    job.events <+: (commitPages allSucceeded job).events ∧
      Numbered Prod.fst (commitPages allSucceeded job).events := by
  unfold commitPages
  split
  · exact ⟨prefix_rfl, h⟩
  · exact ⟨prefix_append _ _, numbered_appendEvent h _⟩

@[simp] theorem commitPages_urls (allSucceeded : Bool) (job : Job) :
    (commitPages allSucceeded job).urls = job.urls := by
  unfold commitPages
  split <;> rfl

variable {idx : ℕ}

theorem pageLoop_ok {asked requested : Bool}
    (hstate : job.state = .running) (hpages : job.pages.length = idx)
    (hidx : idx ≤ job.urls.length) (hurls : job.urls ≠ [])
    (hall : allSucceeded = true ↔ ∀ page ∈ job.pages, page.state = .succeeded)
    (hnumbered : Numbered Prod.fst job.events) (hasked : requested = true → asked = true)
    (hcommit : requested = false → idx = job.urls.length →
      ((job.manifest allSucceeded).encodable = true ↔
        ∃ page ∈ job.pages, page.state = .succeeded)) :
    TurnOk asked interrupted job (pageLoop requested idx allSucceeded job) := by
  cases requested with
  | true =>
    obtain rfl := hasked rfl
    simp only [pageLoop, if_true]
    refine ⟨.of_transition _ _, by simp, by simp, ?_, by simp, summarised_cancelled hstate⟩
    simpa using hnumbered
  | false =>
    simp only [pageLoop, Bool.false_eq_true, if_false]
    split
    · rename_i url hurl
      exact ⟨.refl, rfl, prefix_append _ _, numbered_appendEvent hnumbered _, by simp,
        hstate, hpages, hurl, hall⟩
    · rename_i hend
      have hlength : idx = job.urls.length := by
        have := getElem?_eq_none_iff.mp hend
        omega
      obtain ⟨hevents, hnumbered'⟩ := commitPages_events allSucceeded hnumbered
      exact ⟨commitPages_moves hstate, commitPages_urls _ _, hevents, hnumbered', by simp,
        commitPages_summarised asked (hpages.trans hlength) hurls hall (hcommit rfl hlength)⟩

theorem runJob_ok {asked requested : Bool} (hstage : Stage asked false job .created)
    (hurls : job.urls ≠ []) (hasked : requested = true → asked = true) :
    TurnOk asked false job (runJob requested job) := by
  obtain ⟨hstate, hpages, hevents, -⟩ := hstage
  have hrun : runJob requested job = pageLoop requested 0 true { job with state := .running } := by
    simp [runJob, Job.transition, queuedStarting, startingRunning, hstate]
  rw [hrun]
  have hloop : TurnOk asked false { job with state := .running }
      (pageLoop requested 0 true { job with state := .running }) := by
    refine pageLoop_ok rfl ?_ (Nat.zero_le _) hurls ?_ ?_ hasked ?_
    · simp [hpages]
    · simp [hpages]
    · simpa [hevents] using (numbered_nil : Numbered Prod.fst [])
    · intro _ hlength
      exact absurd (length_eq_zero_iff.mp hlength.symm) hurls
  refine hloop.after ?_ rfl prefix_rfl
  have hstarting : Reaches job.state .starting := by
    rw [hstate]
    exact Relation.ReflTransGen.single queuedStarting.declared
  exact hstarting.tail startingRunning.declared

variable {outcome : CrawlOutcome} {url : String}

/-- A coroutine that goes on: the page is stored and the loop continues, or the
cancellation ends it. -/
theorem resumeJob_ok {asked requested : Bool}
    (hstage : Stage asked interrupted job (.crawling idx url allSucceeded))
    (hnumbered : Numbered Prod.fst job.events) (hasked : requested = true → asked = true)
    (hinterrupted : interrupted = true → asked = true)
    (hcancelled : outcome = .cancelled → interrupted = true)
    (hcommit : requested = false → outcome ≠ .cancelled → idx + 1 = job.urls.length →
      (((job.stored outcome url).manifest allSucceeded).encodable = true ↔
        ∃ page ∈ (job.stored outcome url).pages, page.state = .succeeded)) :
    TurnOk asked interrupted job (resumeJob requested idx url allSucceeded outcome job) := by
  obtain ⟨hstate, hpages, hurl, hall⟩ := hstage
  obtain ⟨hidx, -⟩ := List.getElem?_eq_some_iff.mp hurl
  cases hpage : outcome.page url with
  | none =>
    have houtcome : outcome = .cancelled := by cases outcome <;> simp_all [CrawlOutcome.page]
    obtain rfl := hinterrupted (hcancelled houtcome)
    simp only [resumeJob, hpage]
    have hstate' : (job.appendEvent .cancelled).state = .running := hstate
    refine ⟨.of_transition (job.appendEvent .cancelled) _, ?_, ?_, ?_, hasked,
      summarised_cancelled hstate'⟩
    · simp [Job.appendEvent]
    · simp [Job.appendEvent]
    · rw [transition_events]
      exact numbered_appendEvent hnumbered .cancelled
  | some stored =>
    obtain ⟨page, error⟩ := stored
    have houtcome : outcome ≠ .cancelled := by
      rintro rfl
      cases hpage
    have hstored : (job.storePageResult idx page).pages = job.pages ++ [page] := by
      simp [Job.storePageResult, ← hpages]
    have hwith : (job.stored outcome url).pages = job.pages ++ [page] := by simp [Job.stored, hpage]
    simp only [resumeJob, hpage]
    have hloop : TurnOk asked interrupted
        ((job.storePageResult idx page).appendEvent (.pageComplete idx url page.state error))
        (pageLoop requested (idx + 1) (allSucceeded && page.state = .succeeded)
          ((job.storePageResult idx page).appendEvent
            (.pageComplete idx url page.state error))) := by
      refine pageLoop_ok hstate ?_ hidx ?_ ?_ ?_ hasked ?_
      · simp [Job.appendEvent, hstored, hpages]
      · exact ne_nil_of_length_pos (Nat.zero_lt_of_lt hidx)
      · simp only [Job.appendEvent, hstored, Bool.and_eq_true, hall, decide_eq_true_eq,
          forall_mem_append, forall_mem_singleton]
      · exact @numbered_appendEvent (job.storePageResult idx page) hnumbered _
      · intro hrequested hlength
        have hpages' : ((job.storePageResult idx page).appendEvent
            (.pageComplete idx url page.state error)).pages = (job.stored outcome url).pages :=
          hstored.trans hwith.symm
        have hmanifest : Manifest.encodable
            (((job.storePageResult idx page).appendEvent
              (.pageComplete idx url page.state error)).manifest
                (allSucceeded && page.state = .succeeded)) =
            ((job.stored outcome url).manifest allSucceeded).encodable := by
          simp only [Manifest.encodable, Job.manifest, hpages']
        rw [hmanifest, hpages']
        exact hcommit hrequested houtcome hlength
    exact hloop.after .refl rfl (prefix_append _ _)

/-! ### The stream of a client -/

/-- What a client has received: the rows up to its last id, and the rest of a batch that
was whole if the job was over when it was fetched. -/
def Reading (job : Job) (client : Client) : Prop :=
  match client.phase with
  | .polling =>
      client.lastId ≤ job.events.length ∧ client.received = job.events.take client.lastId
  | .handing row rest =>
      client.received ≠ [] ∧ ∃ fetched ≤ job.events.length, client.received.length = row.1 ∧
        client.received ++ rest = job.events.take fetched ∧
        (job.state.terminal = true → fetched = job.events.length)
  | .done => job.state.terminal = true ∧ client.received = job.events

variable {client : Client}

theorem Reading.received (h : Reading job client) : client.received <+: job.events := by
  unfold Reading at h
  split at h
  · rw [h.2]
    exact take_prefix _ _
  · obtain ⟨-, fetched, -, -, htake, -⟩ := h
    exact (prefix_append _ _).trans (htake ▸ take_prefix _ _)
  · rw [h.2]

/-- A job that goes on leaves what was received, unless it ends between the rows of a
batch. -/
theorem Reading.grow {job job' : Job} (h : Reading job client)
    (hevents : job.events <+: job'.events) (hstate : job.state.terminal = false)
    (hends : job'.state.terminal = true → client.isHanding = false) : Reading job' client := by
  obtain ⟨more, hmore⟩ := hevents
  unfold Reading Client.isHanding at *
  split at h
  · rename_i hphase
    obtain ⟨hlast, htake⟩ := h
    rw [← hmore, length_append, take_append_of_le_length hlast]
    exact ⟨by omega, htake⟩
  · rename_i hphase
    obtain ⟨hne, fetched, hfetched, hrow, htake, -⟩ := h
    refine ⟨hne, fetched, ?_, hrow, ?_, ?_⟩
    · rw [← hmore, length_append]
      omega
    · rw [← hmore, take_append_of_le_length hfetched]
      exact htake
    · intro hterminal
      have hidle := hends hterminal
      rw [hphase] at hidle
      cases hidle
  · rw [h.1] at hstate
    cases hstate

/-- What a stream that found no row or handed on a whole batch does next. -/
theorem Reading.checkState (hlast : client.lastId ≤ job.events.length)
    (htake : client.received = job.events.take client.lastId)
    (hwhole : job.state.terminal = true → client.lastId = job.events.length) :
    Reading job (client.checkState (some job)) := by
  cases hterminal : job.state.terminal with
  | false => simp [Reading, Client.checkState, hterminal, hlast, htake]
  | true => simp [Reading, Client.checkState, hterminal, htake, hwhole hterminal]

theorem Reading.poll (h : Reading job client) (hnumbered : Numbered Prod.fst job.events)
    (hphase : client.phase = .polling) : Reading job (client.poll (some job)) := by
  unfold Reading at h
  rw [hphase] at h
  obtain ⟨hlast, htake⟩ := h
  unfold Client.poll
  rw [map_some, eventsAfter_eq_drop hnumbered]
  split
  · rename_i hnone
    apply Reading.checkState hlast htake
    intro _
    have := drop_eq_nil_iff.mp hnone
    omega
  · rename_i row rest hrows
    have hlt : client.lastId < job.events.length := by
      by_contra hge
      rw [drop_of_length_le (Nat.not_lt.mp hge)] at hrows
      cases hrows
    obtain ⟨hrow, hrest⟩ := cons_eq_cons.mp ((drop_eq_getElem_cons hlt).symm.trans hrows)
    refine ⟨by simp, job.events.length, le_refl _, ?_, ?_, fun _ => rfl⟩
    · rw [← hrow, hnumbered.seq_getElem hlt, htake]
      simp
      omega
    · rw [htake, take_length, append_assoc, singleton_append, ← hrows]
      exact take_append_drop _ _

variable {rest : List (ℕ × Event)} {row : ℕ × Event}

theorem Reading.resume (h : Reading job client) (hnumbered : Numbered Prod.fst job.events)
    (hphase : client.phase = .handing row rest) : Reading job (client.resume (some job)) := by
  unfold Reading at h
  rw [hphase] at h
  obtain ⟨-, fetched, hfetched, hrow, htake, hwhole⟩ := h
  unfold Client.resume
  rw [hphase]
  cases rest with
  | nil =>
    rw [append_nil] at htake
    have hlength : row.1 = fetched := by rw [← hrow, htake, length_take, Nat.min_eq_left hfetched]
    exact Reading.checkState (hlength ▸ hfetched) (hlength ▸ htake) (hlength ▸ hwhole)
  | cons next rest =>
    refine ⟨by simp, fetched, hfetched, ?_, ?_, hwhole⟩
    · have hget : (job.events.take fetched)[client.received.length]? = some next := by
        rw [← htake]
        simp
      obtain ⟨hlt, hnext⟩ := List.getElem?_eq_some_iff.mp hget
      rw [length_take] at hlt
      rw [getElem_take] at hnext
      rw [← hnext, hnumbered.seq_getElem (by omega)]
      simp
    · simpa using htake

/-! ### The service over whole runs -/

structure RunOk (asked : Bool) (run : JobRun) : Prop where
  numbered : Numbered Prod.fst run.job.events
  urls : run.job.urls ≠ []
  interrupted : run.interrupted = true → asked = true
  stage : Stage asked run.interrupted run.job run.task

/-- A stream of a job that is not there has found nothing. -/
def ClientOk (job : Option Job) (client : Client) : Prop :=
  match job with
  | some job => Reading job client
  | none => client.lastId = 0 ∧ client.received = [] ∧ client.phase = .polling

structure Invariant (s : Service) : Prop where
  runs : ∀ id run, s.runs id = some run → RunOk (s.asked id) run
  requests : ∀ id, s.cancelRequests id = true → s.asked id = true
  clients : ∀ key client, s.clients key = some client → ClientOk (s.job client.jobId) client

theorem start_invariant : Invariant Service.start := by constructor <;> simp [Service.start]

theorem Stage.asked_mono {asked asked' : Bool} {task : Task}
    (h : Stage asked interrupted job task) (hmono : asked = true → asked' = true) :
    Stage asked' interrupted job task := by
  cases task with
  | created => exact h
  | crawling => exact h
  | done =>
    obtain ⟨hterminal, hsummary⟩ := h
    refine ⟨hterminal, ?_⟩
    split
    · rename_i hcancelled
      rw [if_pos hcancelled] at hsummary
      exact hmono hsummary
    · rename_i hcancelled
      rwa [if_neg hcancelled] at hsummary

variable {run : JobRun}

theorem RunOk.cancel {asked asked' : Bool} (h : RunOk asked run)
    (hmono : asked = true → asked' = true) (htracked : run.tracked = true → asked' = true)
    (hstarted : run.tracked = true → run.task ≠ .created) : RunOk asked' run.cancel := by
  obtain ⟨hnumbered, hurls, hinterrupted, hstage⟩ := h
  unfold JobRun.cancel
  split
  · exact ⟨hnumbered, hurls, fun hrun => hmono (hinterrupted hrun), hstage.asked_mono hmono⟩
  · rename_i hdone
    refine ⟨hnumbered, hurls, ?_, ?_⟩
    · intro hrun
      rcases Bool.or_eq_true_iff.mp hrun with hrun | hrun
      · exact hmono (hinterrupted hrun)
      · exact htracked hrun
    · have hstage' := hstage.asked_mono hmono
      revert hstage' hstarted
      cases run.task with
      | created =>
        intro hstarted hstage'
        have htracked' : run.tracked = false := by
          by_contra htrue
          exact hstarted (by simpa using htrue) rfl
        simpa [htracked'] using hstage'
      | crawling => exact fun _ hstage' => hstage'
      | done => exact fun _ hstage' => hstage'

@[simp] theorem cancel_job (run : JobRun) : run.cancel.job = run.job := by
  unfold JobRun.cancel
  split <;> rfl

theorem job_cancelJob (s : Service) (id id' : String) : (s.cancelJob id).job id' = s.job id' := by
  unfold Service.job Service.cancelJob
  by_cases h : id' = id
  · subst h
    simp [comp_def]
  · simp [update_of_ne h]

variable {s : Service} {id : String}

theorem Invariant.cancelJob (h : Invariant s) (horderly : Orderly s (.cancel id)) :
    Invariant (s.cancelJob id) := by
  refine ⟨?_, ?_, ?_⟩
  · intro id' run' hrun'
    by_cases hid : id' = id
    · subst hid
      simp only [Service.cancelJob, update_self] at hrun' ⊢
      obtain ⟨run, hrun, rfl⟩ := map_eq_some_iff.mp hrun'
      exact (h.runs id' run hrun).cancel (fun _ => rfl) (fun _ => rfl) (horderly run hrun)
    · simp only [Service.cancelJob, update_of_ne hid] at hrun' ⊢
      exact h.runs id' run' hrun'
  · intro id' hrequest
    by_cases hid : id' = id
    · subst hid
      simp [Service.cancelJob]
    · simp only [Service.cancelJob, update_of_ne hid] at hrequest ⊢
      exact h.requests id' hrequest
  · intro key client hclient
    rw [job_cancelJob]
    exact h.clients key client hclient

theorem job_close (s : Service) (id : String) : s.close.job id = s.job id := by
  simp [Service.job, Service.close, comp_def]

theorem Invariant.close (h : Invariant s) (horderly : Orderly s .close) : Invariant s.close := by
  refine ⟨?_, ?_, ?_⟩
  · intro id run' hrun'
    obtain ⟨run, hrun, rfl⟩ := map_eq_some_iff.mp hrun'
    refine (h.runs id run hrun).cancel ?_ ?_ (horderly id run hrun)
    · intro hasked
      simp [Service.close, hasked]
    · intro htracked
      simp [Service.close, Service.tracked, hrun, htracked]
  · intro id hrequest
    simp [Service.close, h.requests id hrequest]
  · intro key client hclient
    rw [job_close]
    exact h.clients key client hclient

theorem job_clear (s : Service) (gathering : List (String → Bool)) (id : String) :
    (s.clear gathering).job id = s.job id := by
  simp [Service.job, Service.clear, comp_def]

theorem Invariant.clear (h : Invariant s) (gathering : List (String → Bool)) :
    Invariant (s.clear gathering) := by
  refine ⟨?_, h.requests, ?_⟩
  · intro id run' hrun'
    obtain ⟨run, hrun, rfl⟩ := map_eq_some_iff.mp hrun'
    obtain ⟨hnumbered, hurls, hinterrupted, hstage⟩ := h.runs id run hrun
    exact ⟨hnumbered, hurls, hinterrupted, hstage⟩
  · intro key client hclient
    rw [job_clear]
    exact h.clients key client hclient

theorem Invariant.post (h : Invariant s) {urls : List String} (hid : s.runs id = none)
    (hurls : urls ≠ []) :
    Invariant { s with
      runs := update s.runs id (some ⟨createJob urls, .created, false, true⟩) } := by
  refine ⟨?_, h.requests, ?_⟩
  · intro id' run' hrun'
    by_cases hsame : id' = id
    · subst hsame
      simp only [update_self] at hrun'
      obtain rfl := some.inj hrun'
      exact ⟨numbered_nil, hurls, by simp, rfl, rfl, rfl, rfl⟩
    · simp only [update_of_ne hsame] at hrun'
      exact h.runs id' run' hrun'
  · intro key client hclient
    have hclient' := h.clients key client hclient
    unfold Service.job at hclient' ⊢
    by_cases hsame : client.jobId = id
    · simp only [hsame, hid, map_none, update_self, map_some] at hclient' ⊢
      obtain ⟨hlast, hreceived, hphase⟩ := hclient'
      simp [ClientOk, Reading, hphase, hlast, hreceived]
    · simpa only [update_of_ne hsame] using hclient'

theorem Invariant.settle (h : Invariant s) {turn : Turn}
    (hrun : s.runs id = some run) (htask : run.task ≠ .done)
    (hturn : TurnOk (s.asked id) run.interrupted run.job turn)
    (hends : turn.job.state.terminal = true → ∀ key client, s.clients key = some client →
      client.jobId = id → client.isHanding = false) : Invariant (s.settle id run turn) := by
  have hrunOk := h.runs id run hrun
  have hstate : run.job.state.terminal = false := by
    by_contra hterminal
    exact htask (hrunOk.stage.terminal_iff.mp (by simpa using hterminal))
  refine ⟨?_, ?_, ?_⟩
  · intro id' run' hrun'
    by_cases hid : id' = id
    · subst hid
      simp only [Service.settle, update_self] at hrun'
      obtain rfl := some.inj hrun'
      exact ⟨hturn.numbered, hturn.urls ▸ hrunOk.urls, hrunOk.interrupted, hturn.stage⟩
    · simp only [Service.settle, update_of_ne hid] at hrun'
      exact h.runs id' run' hrun'
  · intro id' hrequest
    by_cases hid : id' = id
    · subst hid
      simp only [Service.settle, update_self] at hrequest
      exact hturn.requested hrequest
    · simp only [Service.settle, update_of_ne hid] at hrequest
      exact h.requests id' hrequest
  · intro key client hclient
    have hclient' := h.clients key client hclient
    unfold Service.job at hclient' ⊢
    by_cases hid : client.jobId = id
    · simp only [Service.settle, hid, hrun, update_self, map_some] at hclient' ⊢
      exact hclient'.grow hturn.events hstate fun hterminal => hends hterminal key client hclient hid
    · simpa only [Service.settle, update_of_ne hid] using hclient'

variable {key : ℕ}

theorem Invariant.stream (h : Invariant s) (hclient : ClientOk (s.job client.jobId) client) :
    Invariant { s with clients := update s.clients key (some client) } := by
  refine ⟨h.runs, h.requests, ?_⟩
  intro key' client' hclient'
  by_cases hkey : key' = key
  · subst hkey
    simp only [update_self] at hclient'
    obtain rfl := some.inj hclient'
    exact hclient
  · simp only [update_of_ne hkey] at hclient'
    exact h.clients key' client' hclient'

theorem Invariant.numbered (h : Invariant s) (hjob : s.job id = some job) :
    Numbered Prod.fst job.events := by
  obtain ⟨run, hrun, rfl⟩ := map_eq_some_iff.mp hjob
  exact (h.runs id run hrun).numbered

theorem ClientOk.poll {job : Option Job} (h : ClientOk job client)
    (hnumbered : ∀ job', job = some job' → Numbered Prod.fst job'.events)
    (hphase : client.phase = .polling) : ClientOk job (client.poll job) := by
  cases job with
  | some job => exact Reading.poll h (hnumbered job rfl) hphase
  | none =>
    obtain ⟨hlast, hreceived, -⟩ := h
    exact ⟨hlast, hreceived, rfl⟩

theorem ClientOk.resume {job : Option Job} (h : ClientOk job client)
    (hnumbered : ∀ job', job = some job' → Numbered Prod.fst job'.events)
    (hphase : client.phase = .handing row rest) : ClientOk job (client.resume job) := by
  cases job with
  | some job => exact Reading.resume h (hnumbered job rfl) hphase
  | none =>
    obtain ⟨-, -, hpolling⟩ := h
    rw [hpolling] at hphase
    cases hphase

@[simp] theorem poll_jobId (client : Client) (job : Option Job) :
    (client.poll job).jobId = client.jobId := by
  unfold Client.poll
  split <;> rfl

@[simp] theorem resume_jobId (client : Client) (job : Option Job) :
    (client.resume job).jobId = client.jobId := by
  unfold Client.resume
  split <;> rfl

theorem Invariant.started (h : Invariant s) (hrun : s.runs id = some run)
    (htask : run.task = .created) :
    run.interrupted = false ∧
      TurnOk (s.asked id) run.interrupted run.job (runJob (s.cancelRequests id) run.job) := by
  have hrunOk := h.runs id run hrun
  have hstage := hrunOk.stage
  rw [htask] at hstage
  have hstarts : run.interrupted = false := hstage.2.2.2
  rw [hstarts] at hstage ⊢
  exact ⟨rfl, runJob_ok hstage hrunOk.urls (h.requests id)⟩

theorem Invariant.not_handing (h : Invariant s) (hrun : s.runs id = some run)
    (htask : run.task = .created) (hclient : s.clients key = some client)
    (hid : client.jobId = id) : client.isHanding = false := by
  have hstage := (h.runs id run hrun).stage
  rw [htask] at hstage
  have hreading := h.clients key client hclient
  simp only [Service.job, hid, hrun, map_some, ClientOk, Reading] at hreading
  unfold Client.isHanding
  split
  · rename_i row rest hphase
    rw [hphase] at hreading
    obtain ⟨hne, fetched, -, -, htake, -⟩ := hreading
    rw [hstage.2.2.1, take_nil] at htake
    exact absurd (append_eq_nil_iff.mp htake).1 hne
  · rfl

theorem resumeJob_done {requested : Bool}
    (h : (resumeJob requested idx url allSucceeded outcome job).task = .done) :
    requested = true ∨ outcome = .cancelled ∨ job.urls.length ≤ idx + 1 := by
  cases outcome with
  | cancelled => exact Or.inr (Or.inl rfl)
  | result | raised =>
    cases requested with
    | true => exact Or.inl rfl
    | false =>
      simp only [resumeJob, CrawlOutcome.page, pageLoop, Bool.false_eq_true, if_false] at h
      split at h
      · cases h
      · rename_i hend
        exact Or.inr (Or.inr (getElem?_eq_none_iff.mp hend))

theorem Invariant.crawled (h : Invariant s) (hrun : s.runs id = some run)
    (htask : run.task = .crawling idx url allSucceeded)
    (hcancelled : outcome = .cancelled → run.interrupted = true)
    (horderly : Orderly s (.crawled id outcome)) :
    TurnOk (s.asked id) run.interrupted run.job
      (resumeJob (s.cancelRequests id) idx url allSucceeded outcome run.job) := by
  have hrunOk := h.runs id run hrun
  refine resumeJob_ok (htask ▸ hrunOk.stage) hrunOk.numbered (h.requests id)
    hrunOk.interrupted hcancelled ?_
  intro hrequested houtcome hlength
  exact (horderly run idx url allSucceeded hrun htask (Or.inr (Or.inr hlength))).2
    hrequested houtcome

theorem Invariant.step {s t : Service} {a : Action} (h : Invariant s) (hstep : Step s a t)
    (horderly : Orderly s a) : Invariant t := by
  cases hstep with
  | post hid hurls => exact h.post hid (by simpa using hurls)
  | start hrun htask =>
    obtain ⟨-, hturn⟩ := h.started hrun htask
    refine h.settle hrun (by simp [htask]) hturn fun _ key client hclient hid => ?_
    exact h.not_handing hrun htask hclient hid
  | startInterrupted hrun htask hstarts =>
    rw [(h.started hrun htask).1] at hstarts
    cases hstarts
  | @crawled id run idx url allSucceeded outcome hrun htask hcancelled =>
    have hturn := h.crawled hrun htask hcancelled horderly
    refine h.settle hrun (by simp [htask]) hturn fun hterminal => ?_
    have hdone := hturn.stage.terminal_iff.mp hterminal
    obtain ⟨-, -, hurl, -⟩ := htask ▸ (h.runs id run hrun).stage
    obtain ⟨hidx, -⟩ := List.getElem?_eq_some_iff.mp hurl
    have hlast : s.cancelRequests id = true ∨ outcome = .cancelled ∨
        idx + 1 = run.job.urls.length := by
      rcases resumeJob_done hdone with hrequested | houtcome | hlength
      · exact Or.inl hrequested
      · exact Or.inr (Or.inl houtcome)
      · exact Or.inr (Or.inr (by omega))
    exact (horderly run idx url allSucceeded hrun htask hlast).1
  | cancel => exact h.cancelJob horderly
  | close => exact h.close horderly
  | clear => exact h.clear _
  | openStream id =>
    apply h.stream
    cases hjob : s.job id with
    | none => simp [ClientOk]
    | some job => simp [ClientOk, Reading]
  | @poll key client hclient hphase =>
    apply h.stream
    rw [poll_jobId]
    exact (h.clients key client hclient).poll (fun job hjob => h.numbered hjob) hphase
  | @resume key client row rest hclient hphase =>
    apply h.stream
    rw [resume_jobId]
    exact (h.clients key client hclient).resume (fun job hjob => h.numbered hjob) hphase

theorem Invariant.moves {s t : Service} {a : Action} (h : Invariant s) (hstep : Step s a t)
    (horderly : Orderly s a) (hjob : s.job id = some job) :
    ∃ job', t.job id = some job' ∧ Reaches job.state job'.state := by
  have hsettle : ∀ {id' : String} {run : JobRun} {turn : Turn}, s.runs id' = some run →
      Reaches run.job.state turn.job.state →
      ∃ job', (s.settle id' run turn).job id = some job' ∧ Reaches job.state job'.state := by
    intro id' run turn hrun hmoves
    unfold Service.job at hjob ⊢
    by_cases hid : id = id'
    · subst hid
      rw [hrun] at hjob
      obtain rfl := some.inj hjob
      exact ⟨turn.job, by simp [Service.settle], hmoves⟩
    · exact ⟨job, by simpa only [Service.settle, update_of_ne hid] using hjob, .refl⟩
  cases hstep with
  | @post id' urls hid =>
    refine ⟨job, ?_, .refl⟩
    unfold Service.job at hjob ⊢
    have hne : id ≠ id' := by
      rintro rfl
      simp [hid] at hjob
    simpa only [update_of_ne hne] using hjob
  | start hrun htask => exact hsettle hrun (h.started hrun htask).2.moves
  | startInterrupted hrun => exact hsettle hrun .refl
  | crawled hrun htask hcancelled =>
    exact hsettle hrun (h.crawled hrun htask hcancelled horderly).moves
  | cancel => exact ⟨job, (job_cancelJob s _ id).trans hjob, .refl⟩
  | close => exact ⟨job, (job_close s id).trans hjob, .refl⟩
  | clear => exact ⟨job, (job_clear s _ id).trans hjob, .refl⟩
  | openStream | poll | resume => exact ⟨job, hjob, .refl⟩

/-! ### A stream that goes on -/

theorem Invariant.delivered (h : Invariant s) (hclient : s.clients key = some client)
    (hjob : s.job client.jobId = some job) : Delivered job client := by
  have hreading := h.clients key client hclient
  simp only [hjob, ClientOk] at hreading
  refine ⟨h.numbered hjob, hreading.received, ?_⟩
  intro hdone
  unfold Reading at hreading
  rwa [hdone] at hreading

theorem Invariant.finishes_handing (h : Invariant s) (hclient : s.clients key = some client)
    (hjob : s.job client.jobId = some job) (hterminal : job.state.terminal = true)
    (hphase : client.phase = .handing row rest) : Finishes key s job := by
  induction rest generalizing s client row with
  | nil =>
    have hstep := Step.resume hclient hphase
    have hinvariant := h.step hstep trivial
    have hdone : (client.resume (s.job client.jobId)).phase = .done := by
      simp [Client.resume, hphase, Client.checkState, hjob, hterminal]
    have hjob' : s.job (client.resume (s.job client.jobId)).jobId = some job := by
      rw [resume_jobId]
      exact hjob
    have hdelivered := hinvariant.delivered (update_self key _ _) hjob'
    exact ⟨_, _, .single (Or.inr hstep), update_self key _ _, hdone,
      (hdelivered.done hdone).2⟩
  | cons next rest ih =>
    have hstep := Step.resume hclient hphase
    have hinvariant := h.step hstep trivial
    have hnext : (client.resume (s.job client.jobId)).phase = .handing next rest := by
      simp [Client.resume, hphase]
    have hjob' : s.job (client.resume (s.job client.jobId)).jobId = some job := by
      rw [resume_jobId]
      exact hjob
    obtain ⟨t, client', hrun, hfinished⟩ := ih hinvariant (update_self key _ _) hjob' hnext
    exact ⟨t, client', .head (Or.inr hstep) hrun, hfinished⟩

theorem Invariant.finishes (h : Invariant s) (hclient : s.clients key = some client)
    (hjob : s.job client.jobId = some job) (hterminal : job.state.terminal = true) :
    Finishes key s job := by
  cases hphase : client.phase with
  | handing row rest => exact h.finishes_handing hclient hjob hterminal hphase
  | done =>
    exact ⟨s, client, .refl, hclient, hphase, ((h.delivered hclient hjob).done hphase).2⟩
  | polling =>
    have hstep := Step.poll hclient hphase
    have hinvariant := h.step hstep trivial
    have hjob' : s.job (client.poll (s.job client.jobId)).jobId = some job := by
      rw [poll_jobId]
      exact hjob
    cases hrows : job.eventsAfter client.lastId with
    | nil =>
      have hdone : (client.poll (s.job client.jobId)).phase = .done := by
        simp [Client.poll, hjob, hrows, Client.checkState, hterminal]
      have hdelivered := hinvariant.delivered (update_self key _ _) hjob'
      exact ⟨_, _, .single (Or.inl hstep), update_self key _ _, hdone,
        (hdelivered.done hdone).2⟩
    | cons row rest =>
      have hnext : (client.poll (s.job client.jobId)).phase = .handing row rest := by
        simp [Client.poll, hjob, hrows]
      obtain ⟨t, client', hrun, hfinished⟩ :=
        hinvariant.finishes_handing (update_self key _ _) hjob' hterminal hnext
      exact ⟨t, client', .head (Or.inl hstep) hrun, hfinished⟩

/-- In orderly runs of the service jobs move as declared, end in the state their pages call
for, and their events reach every client. -/
theorem jobs_reported {s : Service} (hrun : Run.Guarded Step Orderly Service.start s) :
    (∀ a t, Step s a t → Orderly s a → ∀ id job, s.job id = some job →
      ∃ job', t.job id = some job' ∧ Reaches job.state job'.state ∧
        (job.state.terminal = true → job'.state = job.state)) ∧
      (∀ id run, s.runs id = some run → run.task = .done → Summarised (s.asked id) run.job) ∧
      ∀ key client job, s.clients key = some client → s.job client.jobId = some job →
        Delivered job client ∧ (job.state.terminal = true → Finishes key s job) := by
  have hinvariant : ∀ s a t, Invariant s → Step s a t → Orderly s a → Invariant t :=
    fun _ _ _ hs hstep horderly => hs.step hstep horderly
  have h : Invariant s := hrun.invariant hinvariant start_invariant
  refine ⟨?_, ?_, ?_⟩
  · intro a t hstep horderly id job hjob
    obtain ⟨job', hjob', hmoves⟩ := h.moves hstep horderly hjob
    exact ⟨job', hjob', hmoves, hmoves.of_terminal⟩
  · intro id run hrun htask
    have hstage := (h.runs id run hrun).stage
    rwa [htask] at hstage
  · intro key client job hclient hjob
    exact ⟨h.delivered hclient hjob, h.finishes hclient hjob⟩

/-- A job of one page that was submitted, and the same job once its crawl has begun. -/
def samplePosted : JobRun := ⟨createJob ["http://a/"], .created, false, true⟩

def sampleService (run : JobRun) : Service :=
  { Service.start with runs := update Service.start.runs "job-1" (some run) }

def sampleCrawling : Turn := runJob false samplePosted.job

def sampleOutcome : CrawlOutcome := .result ⟨none, some 200, [[72, 105]]⟩

theorem samplePosted_run : Run.Guarded Step Orderly Service.start (sampleService samplePosted) := by
  have hstart : Run.Guarded Step Orderly Service.start Service.start := Run.Guarded.refl _
  have hposted := hstart.snoc (@Step.post _ "job-1" ["http://a/"] rfl (by simp)) trivial
  exact hposted

def sampleRunning : JobRun := ⟨sampleCrawling.job, sampleCrawling.task, false, true⟩

def sampleDone : Turn := resumeJob false 0 "http://a/" true sampleOutcome sampleCrawling.job

theorem sampleDone_run : Run.Guarded Step Orderly Service.start
    (((sampleService samplePosted).settle "job-1" samplePosted sampleCrawling).settle "job-1"
      sampleRunning sampleDone) := by
  have hstarted := samplePosted_run.snoc (@Step.start _ "job-1" samplePosted
    (by simp [sampleService]) rfl rfl) trivial
  have hrun : ((sampleService samplePosted).settle "job-1" samplePosted sampleCrawling).runs
      "job-1" = some sampleRunning := by
    rfl
  have hcrawled := @Step.crawled _ _ _ _ _ _ sampleOutcome hrun rfl (by simp [sampleOutcome])
  refine hstarted.snoc hcrawled ?_
  intro run idx url allSucceeded hrun' htask _
  obtain rfl := some.inj (hrun.symm.trans hrun')
  obtain ⟨rfl, rfl, rfl⟩ := Task.crawling.inj htask
  refine ⟨?_, fun _ _ => by decide⟩
  intro key client hclient
  cases hclient

/-- A client that has got its first event of the job. -/
theorem jobs_reported_succeeded : ∃ s client, s.clients 0 = some client ∧
    client.received.length = 1 ∧ Delivered sampleDone.job client ∧ Finishes 0 s sampleDone.job ∧
      Summarised false sampleDone.job ∧ sampleDone.job.state = .succeeded := by
  have hopened := sampleDone_run.snoc (@Step.openStream _ 0 "job-1" rfl) trivial
  have hpolled := hopened.snoc (@Step.poll _ 0 _ rfl rfl) trivial
  obtain ⟨-, hsummarised, hreported⟩ := jobs_reported hpolled
  obtain ⟨hdelivered, hfinishes⟩ := hreported 0 _ sampleDone.job rfl rfl
  exact ⟨_, _, rfl, by decide, hdelivered, hfinishes (by decide), hsummarised "job-1" _ rfl rfl,
    by decide⟩

/-- A task that is cancelled in front of its first step leaves its job queued. -/
theorem cancelled_task_leaves_job_queued :
    ¬ ∀ s, Run.Free Step Service.start s →
      (∀ a t, Step s a t → ∀ id job, s.job id = some job →
        ∃ job', t.job id = some job' ∧ Reaches job.state job'.state ∧
          (job.state.terminal = true → job'.state = job.state)) ∧
        (∀ id run, s.runs id = some run → run.task = .done → Summarised (s.asked id) run.job) ∧
        ∀ key client job, s.clients key = some client → s.job client.jobId = some job →
          Delivered job client ∧ (job.state.terminal = true → Finishes key s job) := by
  intro hclaim
  have hcancelled := samplePosted_run.free.snoc (Step.cancel "job-1") trivial
  have hrun : ((sampleService samplePosted).cancelJob "job-1").runs "job-1" =
      some { samplePosted with interrupted := true } := by
    rfl
  have hover := hcancelled.snoc (Step.startInterrupted hrun rfl rfl) trivial
  obtain ⟨-, hsummarised, -⟩ := hclaim _ hover
  have hqueued := hsummarised "job-1"
    { samplePosted with interrupted := true, task := .done, tracked := false }
    (by simp [Service.settle]) rfl
  exact absurd hqueued.1 (by decide)

end Ds4Studio.Crawl
