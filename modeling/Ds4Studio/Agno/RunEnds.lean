import Ds4Studio.Agno.RunRegistry

/-!
How a run of the Agno service ends. While a run goes on it has no terminal event and a plan
that leads to one; a client has got, or will find in its queue, the events behind its number.
-/

namespace Ds4Studio.Agno

open Ds4Studio.EventLog List

/-! ### The plan of the task -/

/-- No event has ended the run. -/
def Open (events : List Event) : Prop := ∀ e ∈ events, e.terminal = false

/-- The last event ended the run, with the status of the record. -/
def Closed (status : RunStatus) (events : List Event) : Prop :=
  ∃ front e, events = front ++ [e] ∧ e.type.endsWith = some status ∧ Open front

/-- An event that ends nothing. -/
def Instr.delta : Instr → Prop
  | .publish type _ => type.endsWith = none
  | .mark _ => False

/-- What the task has to do ends the run once, or it goes back to the loop before that. -/
inductive Plan (status : RunStatus) (seen : Bool) : Next → List Instr → Prop
  | deltas {todo : List Instr} (hseen : seen = false) (htodo : ∀ i ∈ todo, i.delta) :
      Plan status seen .loop todo
  | ends {next : Next} {front : List Instr} {st : RunStatus} {type : EventType}
      (content : Content) (hnext : next = .loop → seen = true) (hfront : ∀ i ∈ front, i.delta)
      (htype : type.endsWith = some st) :
      Plan status seen next (front ++ [.mark st, .publish type content])
  | marked {next : Next} {type : EventType} (content : Content)
      (hnext : next = .loop → seen = true) (htype : type.endsWith = some status) :
      Plan status seen next [.publish type content]

def Fine (status : RunStatus) (events : List Event) (seen : Bool) : Stage → Prop
  | .queued | .created => Open events ∧ seen = false
  | .working todo next => Open events ∧ Plan status seen next todo
  | .blocked _ _ todo next =>
      Closed status events ∧ todo = [] ∧ (next = .loop → seen = true)
  | .waiting => if seen then Closed status events else Open events
  | .closing => Open events
  | .done => Closed status events

variable {events : List Event} {e : Event}

theorem Open.concat (h : Open events) (he : e.terminal = false) : Open (events ++ [e]) := by
  intro x hx
  rcases mem_append.mp hx with hx | hx
  · exact h x hx
  · rw [mem_singleton.mp hx]
    exact he

variable {status : RunStatus}

theorem Closed.seq_eq (h : Closed status events) (hnumbered : Numbered Event.seq events)
    (he : e ∈ events) (hterminal : e.terminal = true) : e.seq = events.length := by
  obtain ⟨front, last, rfl, -, hfront⟩ := h
  rcases mem_append.mp he with he | he
  · rw [hfront e he] at hterminal
    cases hterminal
  · obtain rfl := mem_singleton.mp he
    have hseq := hnumbered.seq_getElem (i := front.length) (by simp)
    simpa using hseq

@[simp]
theorem Task.goOn_seq (todo : List Instr) (next : Next) (task : Task) :
    (task.goOn todo next).seq = task.seq := by
  unfold Task.goOn
  split <;> rfl

@[simp]
theorem Task.goOn_terminalSeen (todo : List Instr) (next : Next) (task : Task) :
    (task.goOn todo next).terminalSeen = task.terminalSeen := by
  unfold Task.goOn
  split <;> rfl

variable {stage : Stage} {seen : Bool}

theorem Fine.open_or_closed (h : Fine status events seen stage) :
    Open events ∨ Closed status events := by
  cases stage with
  | queued => exact .inl h.1
  | created => exact .inl h.1
  | working todo next => exact .inl h.1
  | blocked e k todo next => exact .inr h.1
  | waiting =>
    cases seen with
    | true => exact .inr h
    | false => exact .inl h
  | closing => exact .inl h
  | done => exact .inr h

variable {todo : List Instr} {next : Next} {task : Task}

theorem Plan.goOn (h : Plan status task.terminalSeen next todo) (hopen : Open events) :
    Fine status events task.terminalSeen (task.goOn todo next).stage := by
  cases todo with
  | cons i todo =>
    exact ⟨hopen, h⟩
  | nil =>
    generalize htodo : ([] : List Instr) = todo at h
    cases h with
    | deltas hseen =>
      subst htodo
      simp only [Task.goOn, Fine, hseen]
      exact hopen
    | ends => simp at htodo
    | marked => cases htodo

theorem Closed.goOn (h : Closed status events) (hnext : next = .loop → task.terminalSeen = true) :
    Fine status events task.terminalSeen (task.goOn [] next).stage := by
  cases next with
  | loop =>
    simp only [Task.goOn, Fine, hnext rfl]
    exact h
  | finish => exact h

variable {type : EventType}

theorem Plan.publish {content : Content}
    (h : Plan status seen next (.publish type content :: todo)) :
    (type.endsWith = none ∧ Plan status seen next todo) ∨
      (type.endsWith = some status ∧ todo = [] ∧ (next = .loop → seen = true)) := by
  generalize hplan : Instr.publish type content :: todo = plan at h
  cases h with
  | deltas hseen hdelta =>
    subst hplan
    exact .inl ⟨hdelta _ mem_cons_self,
      .deltas hseen fun i hi => hdelta i (mem_cons_of_mem _ hi)⟩
  | @ends _ front _ _ content' hnext hdelta htype =>
    cases front with
    | nil => cases hplan
    | cons i front =>
      obtain ⟨rfl, rfl⟩ := cons.inj hplan
      exact .inl ⟨hdelta _ mem_cons_self,
        .ends content' hnext (fun i hi => hdelta i (mem_cons_of_mem _ hi)) htype⟩
  | marked _ hnext htype =>
    cases hplan
    exact .inr ⟨htype, rfl, hnext⟩

theorem Plan.mark {status st : RunStatus} (h : Plan status seen next (.mark st :: todo)) :
    Plan st seen next todo := by
  generalize hplan : Instr.mark st :: todo = plan at h
  cases h with
  | deltas hseen hdelta =>
    subst hplan
    exact (hdelta _ mem_cons_self).elim
  | @ends _ front _ _ content hnext hdelta htype =>
    cases front with
    | nil =>
      cases hplan
      exact .marked content hnext htype
    | cons i front =>
      obtain ⟨rfl, rfl⟩ := cons.inj hplan
      exact (hdelta _ mem_cons_self).elim
  | marked => cases hplan

theorem plan_finish (status : RunStatus) (seen : Bool) {st : RunStatus} (content : Content)
    (htype : type.endsWith = some st) :
    Plan status seen .finish [.mark st, .publish type content] :=
  @Plan.ends status seen .finish [] st type content (fun h => nomatch h) (fun _ hi => nomatch hi)
    htype

theorem publishIf_delta (htype : type.endsWith = none) (content : Content) :
    ∀ i ∈ publishIf type content, i.delta := by
  intro i hi
  unfold publishIf at hi
  split at hi
  · rw [mem_singleton.mp hi]
    exact htype
  · cases hi

theorem AgentEvent.plan (status : RunStatus) (event : AgentEvent) :
    Plan status event.isTerminal .loop event.instrs := by
  have hone : ∀ {type : EventType} (content : Content), type.endsWith = none →
      ∀ i ∈ [Instr.publish type content], i.delta := by
    intro type content htype i hi
    rw [mem_singleton.mp hi]
    exact htype
  cases event with
  | runContent content reasoning =>
    refine .deltas rfl ?_
    intro i hi
    rcases mem_append.mp hi with hi | hi
    · exact publishIf_delta rfl content i hi
    · exact publishIf_delta rfl reasoning i hi
  | modelRequestStarted => exact .deltas rfl (hone _ rfl)
  | modelRequestCompleted totalTokens => exact .deltas rfl (hone _ rfl)
  | toolCallStarted toolCallId toolName => exact .deltas rfl (hone _ rfl)
  | toolCallEnded errorEvent toolCallId toolName toolCallError error result =>
    exact .deltas rfl (hone _ rfl)
  | runCompleted content | runError content =>
    exact @Plan.ends status true .loop [] _ _ _ (fun _ => rfl) (fun _ hi => nomatch hi) rfl
  | other => exact .deltas rfl (fun _ hi => nomatch hi)

theorem prologue_fine (hopen : Open events) (targetId : String) (known : Bool) :
    Fine status events false (prologue targetId known) := by
  cases known with
  | true =>
    refine ⟨hopen, .deltas rfl ?_⟩
    intro i hi
    simp only [mem_cons, not_mem_nil, or_false] at hi
    rcases hi with rfl | rfl | rfl <;> rfl
  | false =>
    refine ⟨hopen, @Plan.ends status false .finish [.publish .runStarted (.dict [])] _ _ _
      (fun h => nomatch h) ?_ rfl⟩
    intro i hi
    rw [mem_singleton.mp hi]
    rfl

/-! ### The queues -/

/-- The client did not name the event or one behind it. -/
def Subscriber.wants (sub : Subscriber) (e : Event) : Bool := sub.lastSeq < e.seq

/-- What the subscriber with a number has still to be given. -/
def Stage.due (i : ℕ) : Stage → List Event
  | .blocked e k _ _ => if k ≤ i then [e] else []
  | _ => []

/-- A client that reads has the events it wants, or will find them. -/
structure Reading (events due : List Event) (sub : Subscriber) : Prop where
  subscribed : sub.subscribed = true
  behind : sub.sent ++ (sub.queue ++ due).filter sub.wants = events.filter sub.wants
  wanted : ∀ e ∈ events, e.terminal = true → sub.wants e = true
  going : ∀ e ∈ sub.sent, e.terminal = false

/-- A client whose stream has ended has the events it wants. -/
structure Ended (events : List Event) (sub : Subscriber) : Prop where
  all : sub.sent = events.filter sub.wants
  last : ∃ e ∈ sub.sent, e.terminal = true

structure Attached (events due : List Event) (sub : Subscriber) : Prop where
  bounded : sub.queue.length ≤ maxsize
  reading : sub.client = .reading → Reading events due sub
  ended : sub.client = .ended → Ended events sub

/-- A queue that has room, or gets it. -/
def Freed (sub : Subscriber) : Prop :=
  sub.subscribed = true → sub.client = .reading ∨ sub.queue.length < maxsize

/-- An event fits the subscriber: one that its client wants is not dropped, and the last one
is wanted and does not wait for a client that has left. -/
structure Fits (e : Event) (sub : Subscriber) : Prop where
  kept : sub.client = .reading → e.terminal = false → sub.wants e = true →
    sub.queue.length < maxsize
  wanted : sub.client = .reading → e.terminal = true → sub.wants e = true
  freed : e.terminal = true → Freed sub

variable {sub : Subscriber}

theorem Fits.of_room (hroom : sub.queue.length < maxsize)
    (hwanted : e.terminal = true → sub.wants e = true) : Fits e sub where
  kept _ _ _ := hroom
  wanted _ hterminal := hwanted hterminal
  freed _ _ := .inr hroom

/-- A queue takes an event, if it has room. -/
def Subscriber.take (e : Event) (sub : Subscriber) : Subscriber :=
  if sub.subscribed && sub.queue.length < maxsize then sub.put e else sub

/-- Every queue takes the event, or it and those behind it wait for it. -/
theorem deliver_spec (e : Event) (subs : List Subscriber) :
    ∃ front rest, subs = front ++ rest ∧
      (deliver e subs).1 = front.map (Subscriber.take e) ++ rest ∧
      (∀ sub ∈ front, e.terminal = true → sub.subscribed = true → sub.queue.length < maxsize) ∧
      (((deliver e subs).2 = none ∧ rest = []) ∨
        ((deliver e subs).2 = some front.length ∧ e.terminal = true ∧
          ∃ sub behind, rest = sub :: behind ∧ sub.subscribed = true)) := by
  induction subs with
  | nil => exact ⟨[], [], rfl, rfl, (fun _ h => nomatch h), .inl ⟨rfl, rfl⟩⟩
  | cons sub subs ih =>
    unfold deliver
    split
    case isTrue h =>
      simp only [Bool.and_eq_true, decide_eq_true_eq] at h
      exact ⟨[], sub :: subs, rfl, rfl, (fun _ h => nomatch h),
        .inr ⟨rfl, h.2, sub, subs, rfl, h.1.1⟩⟩
    case isFalse h =>
      obtain ⟨front, rest, hsubs, hdeliver, hroom, hblocked⟩ := ih
      refine ⟨sub :: front, rest, by rw [hsubs]; rfl, ?_, ?_, ?_⟩
      · simp only [hdeliver, map_cons, cons_append, Subscriber.take]
      · intro x hx hterminal hsubscribed
        rcases mem_cons.mp hx with rfl | hx
        · simp only [hterminal, hsubscribed, Bool.and_true, Bool.true_and, decide_eq_true_eq,
            Nat.not_le] at h
          exact h
        · exact hroom x hx hterminal hsubscribed
      · rcases hblocked with ⟨hnone, hrest⟩ | ⟨hsome, hterminal, hrest⟩
        · exact .inl ⟨by simp [hnone], hrest⟩
        · exact .inr ⟨by simp [hsome], hterminal, hrest⟩

theorem Attached.push (h : Attached events [] sub) (hopen : Open events) (hfits : Fits e sub) :
    Attached (events ++ [e]) [e] sub := by
  refine ⟨h.bounded, fun hclient => ?_, fun hclient => ?_⟩
  · obtain ⟨hsubscribed, hbehind, hwanted, hgoing⟩ := h.reading hclient
    refine ⟨hsubscribed, ?_, ?_, hgoing⟩
    · rw [append_nil] at hbehind
      rw [filter_append, filter_append, ← append_assoc, hbehind]
    · intro x hx hterminal
      rcases mem_append.mp hx with hx | hx
      · exact hwanted x hx hterminal
      · obtain rfl := mem_singleton.mp hx
        exact hfits.wanted hclient hterminal
  · obtain ⟨hall, x, hx, hterminal⟩ := h.ended hclient
    rw [hall] at hx
    rw [hopen x (mem_of_mem_filter hx)] at hterminal
    cases hterminal

theorem Attached.put (h : Attached events [e] sub) (hroom : sub.queue.length < maxsize) :
    Attached events [] (sub.put e) := by
  refine ⟨by simp [Subscriber.put]; omega, fun hclient => ?_, fun hclient => ?_⟩
  · obtain ⟨hsubscribed, hbehind, hwanted, hgoing⟩ := h.reading hclient
    refine ⟨hsubscribed, ?_, hwanted, hgoing⟩
    simp only [append_nil]
    exact hbehind
  · obtain ⟨hall, hlast⟩ := h.ended hclient
    exact ⟨hall, hlast⟩

theorem Attached.take
    (h : Attached events [e] sub) (hkept : sub.client = .reading → e.terminal = false →
      sub.wants e = true → sub.queue.length < maxsize)
    (hroom : e.terminal = true → sub.subscribed = true → sub.queue.length < maxsize) :
    Attached events [] (sub.take e) := by
  unfold Subscriber.take
  split
  case isTrue hput =>
    simp only [Bool.and_eq_true, decide_eq_true_eq] at hput
    exact h.put hput.2
  case isFalse hfull =>
    refine ⟨h.bounded, fun hclient => ?_, h.ended⟩
    obtain ⟨hsubscribed, hbehind, hwanted, hgoing⟩ := h.reading hclient
    simp only [hsubscribed, Bool.true_and, decide_eq_true_eq] at hfull
    have hnot : sub.wants e = false := by
      cases hterminal : e.terminal with
      | true => exact absurd (hroom hterminal hsubscribed) hfull
      | false =>
        by_contra hwants
        exact hfull (hkept hclient hterminal (Bool.not_eq_false _ ▸ hwants))
    refine ⟨hsubscribed, ?_, hwanted, hgoing⟩
    rw [← hbehind]
    simp [hnot]

theorem Attached.read {events due : List Event} {queue : List Event} (h : Attached events due sub)
    (hnumbered : Numbered Event.seq events)
    (hlast : ∀ e ∈ events, e.terminal = true → e.seq = events.length)
    (hclient : sub.client = .reading) (hqueue : sub.queue = e :: queue) :
    Attached events due (sub.read e queue) := by
  have hbound := h.bounded
  obtain ⟨hsubscribed, hbehind, hwanted, hgoing⟩ := h.reading hclient
  rw [hqueue, length_cons] at hbound
  rw [hqueue, cons_append] at hbehind
  unfold Subscriber.read
  split
  case isFalse hold =>
    refine ⟨by simp; omega, fun _ => ⟨hsubscribed, ?_, hwanted, hgoing⟩,
      fun hended => absurd (hclient.symm.trans hended) (by decide)⟩
    rw [filter_cons_of_neg (by simpa [Subscriber.wants] using hold)] at hbehind
    exact hbehind
  case isTrue hnew =>
    rw [filter_cons_of_pos (by simpa [Subscriber.wants] using hnew)] at hbehind
    have hmem : e ∈ events := mem_of_mem_filter (hbehind ▸ mem_append_right _ mem_cons_self)
    cases hterminal : e.terminal with
    | false =>
      refine ⟨by simp; omega, fun _ => ⟨hsubscribed, ?_, hwanted, ?_⟩, fun hended => nomatch hended⟩
      · rw [← append_cons]
        exact hbehind
      · intro x hx
        rcases mem_append.mp hx with hx | hx
        · exact hgoing x hx
        · rw [mem_singleton.mp hx]
          exact hterminal
    | true =>
      refine ⟨by simp; omega, (fun hreading => nomatch hreading), fun _ => ⟨?_, e, ?_, hterminal⟩⟩
      · -- Behind the last event the client wants nothing.
        have hstrict := (hnumbered.strict).sublist (filter_sublist (p := sub.wants) (l := events))
        rw [← hbehind] at hstrict
        have hempty : (queue ++ due).filter sub.wants = [] := by
          refine eq_nil_iff_forall_not_mem.mpr fun x hx => ?_
          have hlt := rel_of_pairwise_cons (pairwise_append.mp hstrict).2.1 hx
          have hle := hnumbered.le_length (e := x)
            (mem_of_mem_filter (hbehind ▸ mem_append_right _ (mem_cons_of_mem _ hx)))
          rw [hlast e hmem hterminal] at hlt
          exact Nat.not_lt.mpr hle hlt
        rw [hempty] at hbehind
        exact hbehind
      · exact mem_append_right _ mem_cons_self

/-! ### The runs -/

/-- A step that the run and its clients survive: nothing ends a run that has ended or leaves one
without its end, no number is lost, and no event that a client wants is dropped. -/
def Orderly (s : Service) : RunAction → Prop
  | .publish =>
      match s.task.stage with
      | .working (.publish type content :: _) _ =>
          content ≠ .value ∧ ∀ sub ∈ s.subscribers, Fits ⟨type, s.task.seq + 1, content⟩ sub
      | _ => True
  | .agent event => s.task.terminalSeen = true → event.instrs = []
  | .agentRaises _ => s.task.terminalSeen = false
  | .cancel =>
      match s.task.stage with
      | .queued | .done => True
      | .waiting => s.task.terminalSeen = false
      | .working (.mark _ :: _) _ => s.task.handling = false
      | _ => False
  | .closed ok => ok = true
  | .subscribe lastSeq =>
      (∀ e ∈ s.events, e.terminal = true → lastSeq < e.seq) ∧
        ∀ e ∈ s.events.drop maxsize, e.seq ≤ lastSeq
  | .leave i =>
      s.task.stage.due i ≠ [] → ∀ sub, s.subscribers[i]? = some sub → sub.queue.length < maxsize
  | _ => True

/-- The subscriber that the task waits for takes the event off, or has. -/
def Stage.Waits (subs : List Subscriber) : Stage → Prop
  | .blocked e k _ _ =>
      e.terminal = true ∧ (∃ sub, subs[k]? = some sub ∧ sub.subscribed = true) ∧
        ∀ i sub, k ≤ i → subs[i]? = some sub → Freed sub
  | _ => True

/-- Whether the task is in the loop or in front of it. -/
def Stage.looping : Stage → Bool
  | .working _ .finish | .blocked _ _ _ .finish | .closing | .done => false
  | _ => true

structure Tracked (s : Service) : Prop where
  numbered : Numbered Event.seq s.events
  seq : s.task.seq = s.events.length
  fine : Fine s.status s.events s.task.terminalSeen s.task.stage
  handling : s.task.stage.looping = true → s.task.handling = false
  served : ∀ i sub, s.subscribers[i]? = some sub →
    Attached s.events (s.task.stage.due i) sub
  waits : s.task.stage.Waits s.subscribers

theorem due_of_unlocked (h : stage.locked = false) (i : ℕ) : stage.due i = [] := by
  cases stage with
  | blocked e k todo next => cases h
  | _ => rfl

theorem waits_of_unlocked (h : stage.locked = false) (subs : List Subscriber) :
    stage.Waits subs := by
  cases stage with
  | blocked e k todo next => cases h
  | _ => trivial

@[simp]
theorem Task.goOn_locked (todo : List Instr) (next : Next) (task : Task) :
    (task.goOn todo next).stage.locked = false := by
  unfold Task.goOn
  split <;> rfl

theorem Task.goOn_handling (h : next = .loop → task.handling = false)
    (hlooping : (task.goOn todo next).stage.looping = true) :
    (task.goOn todo next).handling = false := by
  cases next with
  | loop =>
    unfold Task.goOn
    split <;> exact h rfl
  | finish => cases todo <;> cases hlooping

variable {s : Service}

theorem Tracked.attached (h : Tracked s) (hlock : s.task.stage.locked = false)
    (hsub : sub ∈ s.subscribers) : Attached s.events [] sub := by
  obtain ⟨i, hi⟩ := getElem?_of_mem hsub
  have hserved := h.served i sub hi
  rw [due_of_unlocked hlock i] at hserved
  exact hserved

theorem Tracked.seq_eq (h : Tracked s) (he : e ∈ s.events) (hterminal : e.terminal = true) :
    e.seq = s.events.length := by
  rcases h.fine.open_or_closed with hopen | hclosed
  · rw [hopen e he] at hterminal
    cases hterminal
  · exact hclosed.seq_eq h.numbered he hterminal

theorem Tracked.move (h : Tracked s) (hlock : s.task.stage.locked = false)
    {cancelRequested : Bool} (hseq : task.seq = s.task.seq) (hlock' : task.stage.locked = false)
    (hhandling : task.stage.looping = true → task.handling = false)
    (hfine : Fine status s.events task.terminalSeen task.stage) :
    Tracked { s with status := status, cancelRequested := cancelRequested, task := task } := by
  refine ⟨h.numbered, hseq.trans h.seq, hfine, hhandling, fun i sub hi => ?_,
    waits_of_unlocked hlock' _⟩
  rw [due_of_unlocked hlock' i]
  exact h.attached hlock (mem_of_getElem? hi)

theorem tracked_delivered {front rest : List Subscriber} (hnumbered : Numbered Event.seq s.events)
    (hseq : s.task.seq = s.events.length) (hhandling : next = .loop → s.task.handling = false)
    (hfine : Fine s.status s.events s.task.terminalSeen (s.task.goOn todo next).stage)
    (hclosed : e.terminal = true →
      Closed s.status s.events ∧ todo = [] ∧ (next = .loop → s.task.terminalSeen = true))
    (hfront : ∀ sub ∈ front, Attached s.events [] sub)
    (hrest : ∀ sub ∈ rest, Attached s.events [e] sub)
    (hkept : ∀ sub ∈ rest, sub.client = .reading → e.terminal = false →
      sub.wants e = true → sub.queue.length < maxsize)
    (hfreed : e.terminal = true → ∀ sub ∈ rest, Freed sub) :
    Tracked (s.delivered e front todo next (deliver e rest)) := by
  obtain ⟨given, left, rfl, hdeliver, hroom, hblocked⟩ := deliver_spec e rest
  have hgiven : ∀ sub ∈ front ++ given.map (Subscriber.take e), Attached s.events [] sub := by
    intro sub hsub
    rcases mem_append.mp hsub with hsub | hsub
    · exact hfront sub hsub
    · obtain ⟨x, hx, rfl⟩ := mem_map.mp hsub
      have hmem := mem_append_left left hx
      exact (hrest x hmem).take (hkept x hmem) (hroom x hx)
  unfold Service.delivered
  rw [hdeliver]
  rcases hblocked with ⟨hnone, rfl⟩ | ⟨hsome, hterminal, sub, behind, rfl, hsubscribed⟩
  · rw [hnone]
    refine ⟨hnumbered, (Task.goOn_seq _ _ _).trans hseq, ?_, Task.goOn_handling hhandling,
      fun i sub hi => ?_, waits_of_unlocked (Task.goOn_locked _ _ _) _⟩
    · simp only [Task.goOn_terminalSeen]
      exact hfine
    · simp only [due_of_unlocked (Task.goOn_locked _ _ _)]
      refine hgiven sub (mem_of_getElem? (i := i) ?_)
      simpa using hi
  · rw [hsome]
    have hlength : front.length + given.length =
        (front ++ given.map (Subscriber.take e)).length := by simp
    have hblocked : ∀ {k}, (Stage.blocked e k todo next).looping = true →
        s.task.handling = false := by
      intro k hlooping
      cases next with
      | loop => exact hhandling rfl
      | finish => cases hlooping
    refine ⟨hnumbered, hseq, hclosed hterminal, hblocked, fun i x hi => ?_, hterminal,
      ⟨sub, ?_, hsubscribed⟩, fun i x hki hi => ?_⟩
    · simp only [← append_assoc] at hi
      rw [getElem?_append] at hi
      simp only [Stage.due]
      split at hi
      · rw [if_neg (by omega)]
        exact hgiven x (mem_of_getElem? hi)
      · rw [if_pos (by omega)]
        exact hrest x (mem_append_right _ (mem_of_getElem? hi))
    · simp only [← append_assoc]
      rw [hlength, getElem?_append_right (Nat.le_refl _), Nat.sub_self]
      rfl
    · simp only [← append_assoc] at hi
      rw [getElem?_append_right (by omega)] at hi
      exact hfreed hterminal x (mem_append_right _ (mem_of_getElem? hi))

section

variable (h : Tracked s)

include h

theorem Tracked.replace {front rest : List Subscriber}
    {sub sub' : Subscriber} (hsubs : s.subscribers = front ++ sub :: rest)
    (hattached : Attached s.events (s.task.stage.due front.length) sub →
      Attached s.events (s.task.stage.due front.length) sub')
    (hsubscribed : s.task.stage.locked = true → sub'.subscribed = sub.subscribed)
    (hfreed : s.task.stage.due front.length ≠ [] → Freed sub → Freed sub') :
    Tracked { s with subscribers := front ++ sub' :: rest } := by
  have hset : front ++ sub' :: rest = s.subscribers.set front.length sub' := by simp [hsubs]
  have hself : s.subscribers[front.length]? = some sub := by simp [hsubs]
  have hcases : ∀ i x, (s.subscribers.set front.length sub')[i]? = some x →
      (i = front.length ∧ x = sub') ∨ s.subscribers[i]? = some x := by
    intro i x hi
    rw [getElem?_set] at hi
    split at hi
    case isTrue hlen =>
      split at hi
      · exact .inl ⟨hlen.symm, (Option.some.inj hi).symm⟩
      · cases hi
    case isFalse => exact .inr hi
  rw [hset]
  refine ⟨h.numbered, h.seq, h.fine, h.handling, fun i x hi => ?_, ?_⟩
  · rcases hcases i x hi with ⟨rfl, rfl⟩ | hold
    · exact hattached (h.served _ sub hself)
    · exact h.served i x hold
  · have hwaits := h.waits
    cases hstage : s.task.stage with
    | blocked e k todo next =>
      rw [hstage] at hwaits hfreed hsubscribed
      obtain ⟨hterminal, ⟨y, hy, hysub⟩, hold⟩ := hwaits
      refine ⟨hterminal, ?_, fun i x hki hi => ?_⟩
      · by_cases hk : front.length = k
        · subst hk
          rw [hself] at hy
          obtain rfl := Option.some.inj hy
          refine ⟨sub', ?_, (hsubscribed rfl).trans hysub⟩
          rw [getElem?_set_self (List.getElem?_eq_some_iff.mp hself).1]
        · exact ⟨y, by rw [getElem?_set_ne hk]; exact hy, hysub⟩
      · rcases hcases i x hi with ⟨rfl, rfl⟩ | hx
        · exact hfreed (by simp [Stage.due, hki]) (hold _ sub hki hself)
        · exact hold i x hki hx
    | _ => trivial

theorem Tracked.publish {content : Content}
    (hstage : s.task.stage = .working (.publish type content :: todo) next)
    (hfits : ∀ sub ∈ s.subscribers, Fits ⟨type, s.task.seq + 1, content⟩ sub) :
    Tracked (s.publish type content todo next) := by
  obtain ⟨hopen, hplan⟩ : Open s.events ∧
      Plan s.status s.task.terminalSeen next (.publish type content :: todo) := by
    have hfine := h.fine
    rw [hstage] at hfine
    exact hfine
  have hlock : s.task.stage.locked = false := by
    rw [hstage]
    rfl
  have hnumbered := h.numbered.concat (e := ⟨type, s.task.seq + 1, content⟩)
    (congrArg (· + 1) h.seq)
  have hseq : s.task.take.seq =
      (s.events ++ [(⟨type, s.task.seq + 1, content⟩ : Event)]).length := by
    simp [Task.take, h.seq]
  have hclosed : type.endsWith = some s.status →
      Closed s.status (s.events ++ [⟨type, s.task.seq + 1, content⟩]) :=
    fun htype => ⟨s.events, _, rfl, htype, hopen⟩
  have hpush := fun sub hsub => (h.attached hlock hsub).push hopen (hfits sub hsub)
  have hhandling : next = .loop → s.task.handling = false := by
    rintro rfl
    exact h.handling (by rw [hstage]; rfl)
  refine tracked_delivered hnumbered hseq hhandling ?_ ?_ (fun _ hsub => nomatch hsub) hpush
    (fun sub hsub => (hfits sub hsub).kept)
    (fun hterminal sub hsub => (hfits sub hsub).freed hterminal)
  case refine_1 =>
    rcases hplan.publish with ⟨htype, hrest⟩ | ⟨htype, rfl, hnext⟩
    · have hterminal : Event.terminal ⟨type, s.task.seq + 1, content⟩ = false := by
        simp [Event.terminal, htype]
      exact @Plan.goOn _ _ _ _ s.task.take hrest (hopen.concat hterminal)
    · exact (hclosed htype).goOn hnext
  case refine_2 =>
    intro hterminal
    rcases hplan.publish with ⟨htype, hrest⟩ | ⟨htype, rfl, hnext⟩
    · simp [Event.terminal, htype] at hterminal
    · exact ⟨hclosed htype, rfl, hnext⟩

theorem Tracked.resume {front rest : List Subscriber}
    (hstage : s.task.stage = .blocked e front.length todo next)
    (hsubs : s.subscribers = front ++ sub :: rest) (hroom : sub.queue.length < maxsize) :
    Tracked (s.delivered e (front ++ [sub.put e]) todo next (deliver e rest)) := by
  have hfine := h.fine
  have hwaits := h.waits
  rw [hstage] at hfine hwaits
  obtain ⟨hclosed, rfl, hnext⟩ := hfine
  obtain ⟨hterminal, -, hfreed⟩ := hwaits
  have hserved : ∀ i x, (front ++ sub :: rest)[i]? = some x →
      Attached s.events (if front.length ≤ i then [e] else []) x := by
    intro i x hi
    have hserved := h.served i x (hsubs ▸ hi)
    rw [hstage] at hserved
    exact hserved
  have hrest : ∀ x ∈ sub :: rest, ∃ i, front.length ≤ i ∧ (front ++ sub :: rest)[i]? = some x := by
    intro x hx
    obtain ⟨i, hi⟩ := getElem?_of_mem hx
    refine ⟨front.length + i, by omega, ?_⟩
    rw [getElem?_append_right (by omega), Nat.add_sub_cancel_left]
    exact hi
  have hdue : ∀ x ∈ sub :: rest, Attached s.events [e] x := by
    intro x hx
    obtain ⟨i, hle, hi⟩ := hrest x hx
    have hattached := hserved i x hi
    rw [if_pos hle] at hattached
    exact hattached
  have hhandling : next = .loop → s.task.handling = false := by
    rintro rfl
    exact h.handling (by rw [hstage]; rfl)
  refine tracked_delivered h.numbered h.seq hhandling (hclosed.goOn hnext)
    (fun _ => ⟨hclosed, rfl, hnext⟩) ?_ (fun x hx => hdue x (mem_cons_of_mem _ hx)) ?_ ?_
  · intro x hx
    rcases mem_append.mp hx with hx | hx
    · obtain ⟨i, hi, rfl⟩ := getElem_of_mem hx
      have hattached := hserved i front[i] (by simp [getElem?_append_left, hi])
      rw [if_neg (by omega)] at hattached
      exact hattached
    · rw [mem_singleton.mp hx]
      exact (hdue sub mem_cons_self).put hroom
  · intro x _ _ hnot
    rw [hterminal] at hnot
    cases hnot
  · intro _ x hx
    obtain ⟨i, hle, hi⟩ := hrest x (mem_cons_of_mem _ hx)
    exact hfreed i x hle (hsubs ▸ hi)

theorem Tracked.subscribe {lastSeq : ℤ} (hlock : s.task.stage.locked = false)
    (hwanted : ∀ e ∈ s.events, e.terminal = true → lastSeq < e.seq)
    (hkept : ∀ e ∈ s.events.drop maxsize, e.seq ≤ lastSeq) : Tracked (s.subscribe lastSeq) := by
  refine ⟨h.numbered, h.seq, h.fine, h.handling, fun i sub hi => ?_, waits_of_unlocked hlock _⟩
  have hdue : (s.subscribe lastSeq).task.stage.due i = [] := due_of_unlocked hlock i
  rw [hdue]
  rcases mem_append.mp (mem_of_getElem? hi) with hsub | hsub
  · exact h.attached hlock hsub
  · obtain rfl := mem_singleton.mp hsub
    refine ⟨by simp, fun _ => ⟨rfl, ?_, ?_, fun _ he => nomatch he⟩, fun hclient => nomatch hclient⟩
    · have hdrop : (s.events.drop maxsize).filter
          (Subscriber.wants ⟨true, .reading, lastSeq, s.events.take maxsize, []⟩) = [] := by
        refine filter_eq_nil_iff.mpr fun e he => ?_
        simpa [Subscriber.wants] using hkept e he
      have hsplit := filter_append (p := Subscriber.wants
        ⟨true, .reading, lastSeq, s.events.take maxsize, []⟩) (s.events.take maxsize)
        (s.events.drop maxsize)
      rw [take_append_drop, hdrop, append_nil] at hsplit
      rw [append_nil]
      exact hsplit.symm
    · intro e he hterminal
      simpa [Subscriber.wants] using hwanted e he hterminal

theorem Tracked.cancel (hguard : Orderly s .cancel) :
    Tracked { s with cancelRequested := true, task := s.task.cancel } := by
  have hfine := h.fine
  have hplan : Plan s.status s.task.terminalSeen .finish cancelledTodo :=
    plan_finish s.status s.task.terminalSeen (.dict []) rfl
  unfold Orderly at hguard
  cases hstage : s.task.stage with
  | queued | done =>
    have hcancel : s.task.cancel = s.task := by simp [Task.cancel, hstage]
    rw [hcancel]
    exact h.move (by rw [hstage]; rfl) rfl (by rw [hstage]; rfl) h.handling hfine
  | waiting =>
    rw [hstage] at hguard hfine
    have hhandling := h.handling (by rw [hstage]; rfl)
    have hopen : Open s.events := by
      rw [show s.task.terminalSeen = false from hguard] at hfine
      exact hfine
    simp only [Task.cancel, hstage, hhandling]
    cases s.task.streamOpen with
    | true => exact h.move (by rw [hstage]; rfl) rfl rfl (fun hlooping => nomatch hlooping) hopen
    | false =>
      exact h.move (by rw [hstage]; rfl) rfl rfl (fun hlooping => nomatch hlooping) ⟨hopen, hplan⟩
  | working todo next =>
    rw [hstage] at hguard hfine
    cases todo with
    | nil => exact hguard.elim
    | cons i todo =>
      cases i with
      | publish type content => exact hguard.elim
      | mark status =>
        simp only [Task.cancel, hstage, show s.task.handling = false from hguard]
        cases s.task.streamOpen with
        | true =>
          exact h.move (by rw [hstage]; rfl) rfl rfl (fun hlooping => nomatch hlooping) hfine.1
        | false =>
          exact h.move (by rw [hstage]; rfl) rfl rfl (fun hlooping => nomatch hlooping)
            ⟨hfine.1, hplan⟩
  | created =>
    rw [hstage] at hguard
    exact hguard.elim
  | blocked e k todo next =>
    rw [hstage] at hguard
    exact hguard.elim
  | closing =>
    rw [hstage] at hguard
    exact hguard.elim

/-- An event of the agent, which is nothing to the run once it has ended. -/
theorem Tracked.agent {event : AgentEvent} (hstage : s.task.stage = .waiting)
    (hguard : s.task.terminalSeen = true → event.instrs = []) :
    Tracked { s with task := s.task.agent event } := by
  have hfine := h.fine
  have hhandling := h.handling (by rw [hstage]; rfl)
  rw [hstage] at hfine
  refine h.move (by rw [hstage]; rfl) (Task.goOn_seq _ _ _) (Task.goOn_locked _ _ _)
    (Task.goOn_handling fun _ => hhandling) ?_
  unfold Task.agent
  rw [Task.goOn_terminalSeen]
  cases hseen : s.task.terminalSeen with
  | true =>
    rw [hseen] at hfine
    rw [hguard hseen]
    exact Closed.goOn hfine fun _ => rfl
  | false =>
    rw [hseen] at hfine
    exact Plan.goOn (event.plan s.status) hfine

end

theorem Tracked.step {s t : Service} {a : RunAction} (h : Tracked s) (hstep : RunStep s a t)
    (hguard : Orderly s a) : Tracked t := by
  have hfine := h.fine
  cases hstep with
  | startTask hstage =>
    rw [hstage] at hfine
    exact h.move (by rw [hstage]; rfl) rfl rfl (fun _ => h.handling (by rw [hstage]; rfl)) hfine
  | firstStep targetId known hstage =>
    rw [hstage] at hfine
    obtain ⟨hopen, hseen⟩ := hfine
    refine h.move (by rw [hstage]; rfl) rfl (by cases known <;> rfl)
      (fun _ => h.handling (by rw [hstage]; rfl)) ?_
    rw [hseen]
    exact prologue_fine hopen targetId known
  | mark hstage =>
    rw [hstage] at hfine
    refine h.move (by rw [hstage]; rfl) (Task.goOn_seq _ _ _) (Task.goOn_locked _ _ _)
      (Task.goOn_handling ?_) ?_
    · rintro rfl
      exact h.handling (by rw [hstage]; rfl)
    rw [Task.goOn_terminalSeen]
    exact hfine.2.mark.goOn hfine.1
  | publish hstage hcontent =>
    unfold Orderly at hguard
    rw [hstage] at hguard
    exact h.publish hstage hguard.2
  | refuse message hstage =>
    unfold Orderly at hguard
    rw [hstage] at hguard
    exact absurd rfl hguard.1
  | resume hstage hsubs hroom => exact h.resume hstage hsubs hroom
  | agent event hstage => exact h.agent hstage hguard
  | agentEnds hstage =>
    rw [hstage] at hfine
    refine h.move (by rw [hstage]; rfl) (Task.goOn_seq _ _ _) (Task.goOn_locked _ _ _)
      (Task.goOn_handling fun hnext => nomatch hnext) ?_
    unfold Task.agentEnds
    by_cases hseen : s.task.terminalSeen = true
    · rw [if_pos hseen]
      rw [Fine, if_pos hseen] at hfine
      exact hfine.goOn fun _ => hseen
    · rw [if_neg hseen]
      rw [Fine, if_neg hseen] at hfine
      exact (plan_finish _ _ _ rfl).goOn hfine
  | agentRaises message hstage =>
    have hhandling := h.handling (by rw [hstage]; rfl)
    rw [hstage, show s.task.terminalSeen = false from hguard] at hfine
    unfold Task.raised
    rw [hhandling]
    exact h.move (by rw [hstage]; rfl) rfl rfl (fun hlooping => nomatch hlooping)
      ⟨hfine, plan_finish _ _ _ rfl⟩
  | cancel hlock => exact h.cancel hguard
  | swallow hlock hstage => exact h.move hlock rfl hlock h.handling hfine
  | closed ok hstage =>
    obtain rfl : ok = true := hguard
    rw [hstage] at hfine
    exact h.move (by rw [hstage]; rfl) rfl rfl (fun hlooping => nomatch hlooping)
      ⟨hfine, plan_finish _ _ _ rfl⟩
  | subscribe lastSeq hlock => exact h.subscribe hlock hguard.1 hguard.2
  | @read front rest sub e queue hsubs hclient hqueue =>
    have hbound := (h.served front.length sub (by simp [hsubs])).bounded
    rw [hqueue] at hbound
    refine h.replace hsubs (fun hattached => hattached.read h.numbered ?_ hclient hqueue) ?_ ?_
    · exact fun e he hterminal => h.seq_eq he hterminal
    · intro _
      unfold Subscriber.read
      split <;> rfl
    · intro _ _ _
      refine .inr ?_
      unfold Subscriber.read
      split <;> exact hbound
  | @leave front rest sub hsubs hclient =>
    refine h.replace hsubs (fun hattached => ⟨hattached.bounded, (fun hreading => nomatch hreading),
      fun hended => nomatch hended⟩) (fun _ => rfl) ?_
    exact fun hdue _ _ => .inr (hguard hdue sub (by simp [hsubs]))
  | @unsubscribe front rest sub hsubs hclient hlock =>
    refine h.replace hsubs (fun hattached => ⟨hattached.bounded, fun hreading =>
      absurd hreading hclient, fun hended => ?_⟩) (fun hlocked => ?_) (fun _ _ hsubscribed => ?_)
    · obtain ⟨hall, hlast⟩ := hattached.ended hended
      exact ⟨hall, hlast⟩
    · rw [hlock] at hlocked
      cases hlocked
    · cases hsubscribed

theorem tracked_start : Tracked Service.start := by
  constructor
  case numbered => exact numbered_nil
  case seq => rfl
  case fine => exact ⟨(fun _ h => nomatch h), rfl⟩
  case handling => exact fun _ => rfl
  case served => exact fun _ _ h => nomatch h
  case waits => trivial

/-- The run ends once and every client that reads on sees it. -/
structure EndsOnce (s : Service) : Prop where
  numbered : Numbered Event.seq s.events
  last : ∀ front e rest, s.events = front ++ e :: rest → e.terminal = true →
    rest = [] ∧ e.type.endsWith = some s.status
  ends : s.task.stage = .done → ∃ front e, s.events = front ++ [e] ∧ e.terminal = true
  reading : ∀ sub ∈ s.subscribers, sub.client = .reading →
    sub.sent <+: s.events.filter (fun e => sub.lastSeq < e.seq) ∧
      ∀ e ∈ sub.sent, e.terminal = false
  ended : ∀ sub ∈ s.subscribers, sub.client = .ended →
    sub.sent = s.events.filter (fun e => sub.lastSeq < e.seq) ∧ ∃ e ∈ sub.sent, e.terminal = true
  ending : s.task.stage = .done → ∀ sub ∈ s.subscribers, sub.client = .reading →
    ∃ e ∈ sub.queue, e.terminal = true ∧ sub.lastSeq < e.seq
  unblocked : ∀ e k todo next, s.task.stage = .blocked e k todo next →
    ∃ sub, s.subscribers[k]? = some sub ∧
      (sub.queue.length < maxsize ∨ (sub.client = .reading ∧ sub.queue ≠ []))

theorem Tracked.endsOnce (h : Tracked s) : EndsOnce s := by
  constructor
  case numbered => exact h.numbered
  case last =>
    intro front e rest hevents hterminal
    rcases h.fine.open_or_closed with hopen | ⟨before, last, hclosed, htype, hopen⟩
    · rw [hopen e (by simp [hevents])] at hterminal
      cases hterminal
    · rw [hclosed] at hevents
      rcases eq_nil_or_concat rest with rfl | ⟨rest, x, rfl⟩
      · obtain ⟨-, he⟩ := append_inj' hevents rfl
        obtain rfl := singleton_inj.mp he
        exact ⟨rfl, htype⟩
      · rw [concat_eq_append, ← cons_append, ← append_assoc] at hevents
        obtain ⟨hbefore, -⟩ := append_inj' hevents rfl
        rw [hopen e (by simp [hbefore])] at hterminal
        cases hterminal
  case ends =>
    intro hdone
    have hfine := h.fine
    rw [hdone] at hfine
    obtain ⟨front, e, hevents, htype, -⟩ := hfine
    exact ⟨front, e, hevents, by simp [Event.terminal, htype]⟩
  case reading =>
    intro sub hsub hclient
    obtain ⟨i, hi⟩ := getElem?_of_mem hsub
    have hreading := (h.served i sub hi).reading hclient
    exact ⟨⟨_, hreading.behind⟩, hreading.going⟩
  case ended =>
    intro sub hsub hclient
    obtain ⟨i, hi⟩ := getElem?_of_mem hsub
    obtain ⟨hall, hlast⟩ := (h.served i sub hi).ended hclient
    exact ⟨hall, hlast⟩
  case ending =>
    intro hdone sub hsub hclient
    have hreading := (h.attached (by rw [hdone]; rfl) hsub).reading hclient
    have hfine := h.fine
    rw [hdone] at hfine
    obtain ⟨front, e, hevents, htype, -⟩ := hfine
    have hterminal : e.terminal = true := by simp [Event.terminal, htype]
    have hmem : e ∈ s.events := by simp [hevents]
    have hwants := hreading.wanted e hmem hterminal
    have hgot : e ∈ sub.sent ++ (sub.queue ++ []).filter sub.wants := by
      rw [hreading.behind]
      exact mem_filter.mpr ⟨hmem, hwants⟩
    rcases mem_append.mp hgot with hsent | hqueue
    · rw [hreading.going e hsent] at hterminal
      cases hterminal
    · refine ⟨e, ?_, hterminal, by simpa [Subscriber.wants] using hwants⟩
      simpa using mem_of_mem_filter hqueue
  case unblocked =>
    intro e k todo next hstage
    have hwaits := h.waits
    rw [hstage] at hwaits
    obtain ⟨-, ⟨sub, hsub, hsubscribed⟩, hfreed⟩ := hwaits
    refine ⟨sub, hsub, ?_⟩
    by_cases hroom : sub.queue.length < maxsize
    · exact .inl hroom
    · rcases hfreed k sub (Nat.le_refl k) hsub hsubscribed with hclient | hroom'
      · refine .inr ⟨hclient, fun hempty => hroom ?_⟩
        rw [hempty]
        decide
      · exact absurd hroom' hroom

/-- A run ends exactly once, with its last event and the status of the record, and every client
that reads on gets the events behind its number and then the end, as long as nothing ends the
run a second time or drops an event that a client waits for. -/
theorem run_ends_once {s : Service} (hrun : Run.Guarded RunStep Orderly Service.start s) :
    EndsOnce s := by
  have htracked : Tracked s := by
    refine hrun.invariant (I := Tracked) ?_ tracked_start
    intro t a t' ht hstep hguard
    exact ht.step hstep hguard
  exact htracked.endsOnce

/-- A client that names the first event gets the others, and its stream ends. -/
theorem run_ends_once_read : ∃ s, EndsOnce s ∧ s.task.stage = .done ∧ s.status = .completed ∧
    s.subscribers.map (fun sub => (sub.client, sub.sent.map Event.seq)) =
      [(.ended, [2, 3, 4])] := by
  have hstart : Run.Guarded RunStep Orderly Service.start Service.start := Run.Guarded.refl _
  have hcreated := hstart.snoc (RunStep.startTask rfl) trivial
  have hfirst := hcreated.snoc (RunStep.firstStep "assistant" true rfl) trivial
  have hsubscribed := hfirst.snoc (RunStep.subscribe 1 rfl)
    ⟨fun _ h => absurd h not_mem_nil, fun _ h => absurd h not_mem_nil⟩
  have hstarted := hsubscribed.snoc (RunStep.publish rfl Content.noConfusion)
    ⟨Content.noConfusion, forall_mem_singleton.mpr
      (Fits.of_room (by decide) fun h => nomatch h)⟩
  have hwaiting := hstarted.snoc (RunStep.publish rfl Content.noConfusion)
    ⟨Content.noConfusion, forall_mem_singleton.mpr
      (Fits.of_room (by decide) fun h => nomatch h)⟩
  have hmodel := hwaiting.snoc (RunStep.publish rfl Content.noConfusion)
    ⟨Content.noConfusion, forall_mem_singleton.mpr
      (Fits.of_room (by decide) fun h => nomatch h)⟩
  have hanswer := hmodel.snoc (RunStep.agent (.runCompleted (.text "done")) rfl) fun h => nomatch h
  have hmarked := hanswer.snoc (RunStep.mark rfl) trivial
  have hcompleted := hmarked.snoc (RunStep.publish rfl Content.noConfusion)
    ⟨Content.noConfusion, forall_mem_singleton.mpr (Fits.of_room (by decide) fun _ => rfl)⟩
  have hends := hcompleted.snoc (RunStep.agentEnds rfl) trivial
  have hread := hends.snoc (@RunStep.read _ [] [] _ _ _ rfl rfl rfl) trivial
  have hread := hread.snoc (@RunStep.read _ [] [] _ _ _ rfl rfl rfl) trivial
  have hread := hread.snoc (@RunStep.read _ [] [] _ _ _ rfl rfl rfl) trivial
  have hread := hread.snoc (@RunStep.read _ [] [] _ _ _ rfl rfl rfl) trivial
  exact ⟨_, run_ends_once hread, rfl, rfl, rfl⟩

/-- A run that is cancelled after its agent has completed it, and before the agent yields no more,
ends twice. -/
theorem run_ends_twice : ¬ ∀ s, Run.Free RunStep Service.start s → EndsOnce s := by
  intro hclaim
  have hstart : Run.Free RunStep Service.start Service.start := Run.Guarded.refl _
  have hcreated := hstart.snoc (RunStep.startTask rfl) trivial
  have hfirst := hcreated.snoc (RunStep.firstStep "assistant" true rfl) trivial
  have hstarted := hfirst.snoc (RunStep.publish rfl Content.noConfusion) trivial
  have hwaiting := hstarted.snoc (RunStep.publish rfl Content.noConfusion) trivial
  have hmodel := hwaiting.snoc (RunStep.publish rfl Content.noConfusion) trivial
  have hanswer := hmodel.snoc (RunStep.agent (.runCompleted (.text "done")) rfl) trivial
  have hmarked := hanswer.snoc (RunStep.mark rfl) trivial
  have hcompleted := hmarked.snoc (RunStep.publish rfl Content.noConfusion) trivial
  have hcancelled := hcompleted.snoc (RunStep.cancel rfl) trivial
  have hclosed := hcancelled.snoc (RunStep.closed true rfl) trivial
  have hmarked' := hclosed.snoc (RunStep.mark rfl) trivial
  have hends := hmarked'.snoc (RunStep.publish rfl Content.noConfusion) trivial
  have hlast := (hclaim _ hends).last [_, _, _] ⟨.runCompleted, 4, .text "done"⟩ [_] rfl rfl
  cases hlast.1

end Ds4Studio.Agno
