import Ds4Studio.Lib.EventLog

/-!
The event stream of a run: a client subscribes, the events behind its cursor are read from the
ledger and replayed, and then live events are delivered. Events are appended all the while; an
append and the reading hold the lock of the run, the subscription does not.
-/

namespace Ds4Studio.Evolution.Stream

open EventLog List Option

variable {β : Type}

structure Event (β : Type) where
  sequence : ℕ
  body : β

/-- Where the handler of the route is. -/
inductive Phase (β : Type) where
  | idle
  /-- subscribed, and waiting for `readEvents` -/
  | reading
  /-- the events of the replay are read, and the handler has not gone on yet -/
  | read (replay : List (Event β))
  | live

structure State (β : Type) where
  /-- the events that listeners have been told of -/
  notified : List (Event β)
  /-- an event that is in the ledger, and of which listeners have not been told -/
  written : Option (Event β)
  phase : Phase β
  pending : List (Event β)
  lastSequence : ℕ
  closed : Bool
  /-- what has been written to the client -/
  received : List (Event β)
  /-- how many events listeners had been told of at the subscription -/
  base : ℕ

inductive Action (β : Type) where
  | append (body : β)
  | notify
  /-- a request for the route -/
  | subscribe
  | readEvents
  /-- the handler goes on behind the reading -/
  | replay

section Route

-- `accepts`: whether `res.write` takes more behind the event with a number.
variable (accepts : ℕ → Bool) (maxReplay afterSequence : ℕ)

def State.new : State β := ⟨[], none, .idle, [], afterSequence, false, [], 0⟩

def State.ledger (s : State β) : List (Event β) := s.notified ++ s.written.toList

/-- `replaying` is over. -/
def State.goLive (s : State β) : State β := { s with phase := .live }

def send (s : State β) (event : Event β) : State β :=
  if s.closed || event.sequence ≤ s.lastSequence then s
  else
    { s with
      lastSequence := event.sequence
      received := s.received ++ [event]
      closed := !accepts event.sequence }

def State.defer (s : State β) (event : Event β) : State β :=
  { s with pending := s.pending ++ [event] }

/-- `_notify`, in front of the listener of the route. -/
def State.told (s : State β) (event : Event β) : State β :=
  { s with notified := s.notified ++ [event], written := none }

/-- The listener of the route -/
def listener (s : State β) (event : Event β) : State β :=
  match s.phase with
  | .idle => s
  | .reading | .read _ => s.defer event
  | .live => send accepts s event

def step (s : State β) : Action β → State β
  | .append body =>
      if s.written.isNone then
        { s with written := some ⟨s.ledger.length + 1, body⟩ }
      else s
  | .notify =>
      match s.written with
      | some event => listener accepts (s.told event) event
      | none => s
  | .subscribe =>
      match s.phase with
      | .idle => { s with phase := .reading, base := s.notified.length }
      | _ => s
  | .readEvents =>
      match s.phase with
      | .reading =>
          if s.written.isNone then
            let events := behind Event.sequence afterSequence s.ledger
            { s with phase := .read (events.take maxReplay) }
          else s
      | _ => s
  | .replay =>
      match s.phase with
      | .read replay =>
          let s := (replay.foldl (send accepts) s).goLive
          (s.pending.insertionSort fun left right => left.sequence ≤ right.sequence).foldl
            (send accepts) s
      | _ => s

def run (actions : List (Action β)) : State β :=
  actions.foldl (step accepts maxReplay afterSequence) (.new afterSequence)

end Route

/-! ### What is sent -/

variable {accepts : ℕ → Bool} {maxReplay afterSequence last : ℕ} {s : State β}
  {log front back l received : List (Event β)} {event : Event β}

/-- The client has the events behind its cursor up to the last one that was sent. -/
def Sent (log : List (Event β)) (afterSequence last : ℕ) (received : List (Event β)) : Prop :=
  last = afterSequence + received.length ∧ received <+: log.drop afterSequence

theorem Sent.append (h : Sent log afterSequence last received) (more : List (Event β)) :
    Sent (log ++ more) afterSequence last received :=
  ⟨h.1, h.2.trans ((prefix_append log more).drop afterSequence)⟩

theorem Sent.eq_drop (h : Sent log afterSequence last received) (hlast : log.length ≤ last) :
    received = log.drop afterSequence := by
  refine h.2.eq_of_length_le ?_
  rw [length_drop]
  have := h.1
  omega

/-- The fields that sending leaves alone. -/
structure Framed (s s' : State β) : Prop where
  notified : s'.notified = s.notified
  written : s'.written = s.written
  phase : s'.phase = s.phase
  pending : s'.pending = s.pending
  base : s'.base = s.base

variable (accepts) in
theorem framed_send (s : State β) (event : Event β) : Framed s (send accepts s event) := by
  rw [send]
  split_ifs <;> exact ⟨rfl, rfl, rfl, rfl, rfl⟩

variable (accepts) in
theorem framed_foldl (s : State β) (l : List (Event β)) : Framed s (l.foldl (send accepts) s) := by
  induction l generalizing s with
  | nil => exact ⟨rfl, rfl, rfl, rfl, rfl⟩
  | cons event l ih =>
    have hfirst := framed_send accepts s event
    have hrest := ih (send accepts s event)
    exact ⟨hrest.notified.trans hfirst.notified, hrest.written.trans hfirst.written,
      hrest.phase.trans hfirst.phase, hrest.pending.trans hfirst.pending,
      hrest.base.trans hfirst.base⟩

theorem send_closed (h : s.closed = true) (event : Event β) : send accepts s event = s := by
  rw [send, h, Bool.true_or, if_pos rfl]

theorem foldl_closed (h : s.closed = true) (l : List (Event β)) : l.foldl (send accepts) s = s := by
  induction l with
  | nil => rfl
  | cons event l ih => rw [foldl_cons, send_closed h, ih]

variable (accepts) in
theorem sent_send (hlog : Numbered Event.sequence (front ++ event :: back))
    (h : Sent (front ++ event :: back) afterSequence s.lastSequence s.received)
    (hlast : front.length ≤ s.lastSequence) :
    Sent (front ++ event :: back) afterSequence (send accepts s event).lastSequence
        (send accepts s event).received ∧
      ((send accepts s event).closed = false →
        front.length + 1 ≤ (send accepts s event).lastSequence) := by
  have hsequence : event.sequence = front.length + 1 := by
    have hget := hlog.seq_getElem (i := front.length) (by simp)
    simpa using hget
  rw [send]
  split_ifs with hskip
  · refine ⟨h, fun hopen => ?_⟩
    rw [hopen, Bool.false_or, decide_eq_true_eq, hsequence] at hskip
    exact hskip
  · rw [Bool.or_eq_true, not_or, decide_eq_true_eq, not_le, hsequence] at hskip
    obtain ⟨hlength, hprefix⟩ := h
    have hnext : afterSequence + s.received.length = front.length := by omega
    have hdrop : (front ++ event :: back).drop afterSequence =
        front.drop afterSequence ++ event :: back := by
      rw [drop_append_of_le_length (by omega)]
    rw [hdrop] at hprefix
    have hreceived : s.received = front.drop afterSequence := by
      have hfront := prefix_of_prefix_length_le hprefix (prefix_append _ _)
        (by rw [length_drop]; omega)
      exact hfront.eq_of_length_le (by rw [length_drop]; omega)
    refine ⟨⟨?_, ?_⟩, fun _ => hsequence.ge⟩
    · change event.sequence = afterSequence + (s.received ++ [event]).length
      rw [length_append, length_singleton, hsequence]
      omega
    · rw [hdrop, hreceived]
      exact ⟨back, by simp⟩

variable (accepts) in
theorem sent_foldl (hlog : Numbered Event.sequence (front ++ (l ++ back)))
    (h : Sent (front ++ (l ++ back)) afterSequence s.lastSequence s.received)
    (hlast : front.length ≤ s.lastSequence) :
    Sent (front ++ (l ++ back)) afterSequence (l.foldl (send accepts) s).lastSequence
        (l.foldl (send accepts) s).received ∧
      ((l.foldl (send accepts) s).closed = false →
        front.length + l.length ≤ (l.foldl (send accepts) s).lastSequence) := by
  induction l generalizing front s with
  | nil => exact ⟨h, fun _ => hlast⟩
  | cons event l ih =>
    rw [cons_append] at hlog h ⊢
    have hsent := sent_send accepts hlog h hlast
    rw [foldl_cons]
    rcases hclosed : (send accepts s event).closed with _ | _
    · have hassoc : front ++ event :: (l ++ back) = (front ++ [event]) ++ (l ++ back) := by simp
      rw [hassoc] at hlog hsent ⊢
      have hrest := ih hlog hsent.1 (by simpa using hsent.2 hclosed)
      refine ⟨hrest.1, fun hopen => ?_⟩
      have hlength := hrest.2 hopen
      rw [length_append, length_singleton] at hlength
      rw [length_cons]
      omega
    · rw [foldl_closed hclosed]
      refine ⟨hsent.1, fun hopen => ?_⟩
      rw [hclosed] at hopen
      exact Bool.noConfusion hopen

theorem mem_foldl {e : Event β} (he : e ∈ (l.foldl (send accepts) s).received) :
    e ∈ s.received ∨ e ∈ l := by
  induction l generalizing s with
  | nil => exact .inl he
  | cons event l ih =>
    rcases ih he with hfirst | hrest
    · rw [send] at hfirst
      split_ifs at hfirst
      · exact .inl hfirst
      · refine (mem_append.mp hfirst).imp_right fun heq => ?_
        exact mem_singleton.mp heq ▸ mem_cons_self
    · exact .inr (mem_cons_of_mem _ hrest)

/-! ### The invariant of the route -/

/-- Nothing has been sent yet. -/
structure Waiting (afterSequence : ℕ) (s : State β) : Prop where
  last : s.lastSequence = afterSequence
  received : s.received = []
  closed : s.closed = false

/-- What listeners were told since the subscription is pending. -/
structure Told (s : State β) : Prop where
  base : s.base ≤ s.notified.length
  pending : s.pending = s.notified.drop s.base

/-- What has been sent when live events are delivered. With a backlog that is too long the first
event behind the replay is left out. -/
structure Delivered (maxReplay afterSequence : ℕ) (s : State β) : Prop where
  base : s.base ≤ s.notified.length
  complete : s.base ≤ afterSequence + maxReplay →
    Sent s.notified afterSequence s.lastSequence s.received ∧
      (s.closed = false → s.notified.length ≤ s.lastSequence)
  gap : afterSequence + maxReplay < s.base →
    ∀ e ∈ s.received, e.sequence ≠ afterSequence + maxReplay + 1

def AtPhase (maxReplay afterSequence : ℕ) (s : State β) : Prop :=
  match s.phase with
  | .idle => Waiting afterSequence s ∧ s.pending = []
  | .reading => Waiting afterSequence s ∧ Told s
  | .read replay => Waiting afterSequence s ∧ Told s ∧ ∃ m, s.base ≤ m ∧ m ≤ s.notified.length ∧
      replay = (s.notified.drop afterSequence).take (min (m - afterSequence) maxReplay)
  | .live => Delivered maxReplay afterSequence s

structure Inv (maxReplay afterSequence : ℕ) (s : State β) : Prop where
  numbered : Numbered Event.sequence s.notified
  next : ∀ e, s.written = some e → e.sequence = s.notified.length + 1
  phase : AtPhase maxReplay afterSequence s

variable (maxReplay) in
theorem atPhase_idle (h : s.phase = .idle) : AtPhase maxReplay afterSequence s ↔
    Waiting afterSequence s ∧ s.pending = [] := by
  rw [AtPhase, h]

variable (maxReplay) in
theorem atPhase_reading (h : s.phase = .reading) : AtPhase maxReplay afterSequence s ↔
    Waiting afterSequence s ∧ Told s := by
  rw [AtPhase, h]

variable (maxReplay) in
theorem atPhase_read {replay : List (Event β)} (h : s.phase = .read replay) :
    AtPhase maxReplay afterSequence s ↔ Waiting afterSequence s ∧ Told s ∧
      ∃ m, s.base ≤ m ∧ m ≤ s.notified.length ∧
        replay = (s.notified.drop afterSequence).take (min (m - afterSequence) maxReplay) := by
  rw [AtPhase, h]

theorem atPhase_live (h : s.phase = .live) : AtPhase maxReplay afterSequence s ↔
    Delivered maxReplay afterSequence s := by
  rw [AtPhase, h]

theorem Inv.new : Inv maxReplay afterSequence (.new afterSequence : State β) :=
  ⟨numbered_nil, nofun, ⟨rfl, rfl, rfl⟩, rfl⟩

theorem take_drop_append {a j : ℕ} (hj : j ≤ log.length - a) (more : List (Event β)) :
    ((log ++ more).drop a).take j = (log.drop a).take j := by
  rw [drop_append, take_append_of_le_length (by rw [length_drop]; exact hj)]

variable (accepts) in
theorem sent_replay {j : ℕ} (hlog : Numbered Event.sequence s.notified)
    (hwaiting : Waiting afterSequence s) :
    Sent s.notified afterSequence
        (((s.notified.drop afterSequence).take j).foldl (send accepts) s).lastSequence
        (((s.notified.drop afterSequence).take j).foldl (send accepts) s).received ∧
      ((((s.notified.drop afterSequence).take j).foldl (send accepts) s).closed = false →
        min (afterSequence + j) s.notified.length ≤
          (((s.notified.drop afterSequence).take j).foldl (send accepts) s).lastSequence) := by
  have hparts : s.notified = s.notified.take afterSequence ++
      ((s.notified.drop afterSequence).take j ++ (s.notified.drop afterSequence).drop j) := by
    rw [take_append_drop, take_append_drop]
  have hstart : Sent s.notified afterSequence s.lastSequence s.received := by
    rw [hwaiting.last, hwaiting.received]
    exact ⟨rfl, nil_prefix⟩
  have hlast : (s.notified.take afterSequence).length ≤ s.lastSequence := by
    rw [hwaiting.last, length_take]
    exact min_le_left _ _
  have hsent := sent_foldl accepts (hparts ▸ hlog) (hparts ▸ hstart) hlast
  rw [← hparts] at hsent
  refine ⟨hsent.1, fun hopen => (le_of_eq_of_le ?_ (hsent.2 hopen))⟩
  rw [length_take, length_take, length_drop]
  omega

variable (accepts maxReplay) in
/-- The replay and the pending events bring the client up to the last event that listeners were
told of, unless the cap leaves a gap between the two. -/
theorem delivered_replay {m : ℕ} (hlog : Numbered Event.sequence s.notified)
    (hwaiting : Waiting afterSequence s) (htold : Told s) (hm : s.base ≤ m)
    (hm' : m ≤ s.notified.length) :
    Delivered maxReplay afterSequence (s.pending.foldl (send accepts)
      (((s.notified.drop afterSequence).take (min (m - afterSequence) maxReplay)).foldl
        (send accepts) s).goLive) := by
  have hreplay := sent_replay accepts (j := min (m - afterSequence) maxReplay) hlog hwaiting
  have hframe := framed_foldl accepts s
    ((s.notified.drop afterSequence).take (min (m - afterSequence) maxReplay))
  have hreceived : ∀ e ∈ (((s.notified.drop afterSequence).take
      (min (m - afterSequence) maxReplay)).foldl (send accepts) s).received,
      e.sequence ≤ afterSequence + maxReplay := by
    intro e he
    rcases mem_foldl he with hbefore | hreplayed
    · rw [hwaiting.received] at hbefore
      cases hbefore
    · refine (hlog.le_of_mem_take (n := afterSequence + min (m - afterSequence) maxReplay) ?_).trans
        (by omega)
      refine mem_of_mem_drop (i := afterSequence) ?_
      rwa [drop_take, Nat.add_sub_cancel_left]
  generalize ((s.notified.drop afterSequence).take (min (m - afterSequence) maxReplay)).foldl
    (send accepts) s = s₁ at hreplay hframe hreceived ⊢
  have hframe' := framed_foldl accepts s₁.goLive s.pending
  have hnotified : (s.pending.foldl (send accepts) s₁.goLive).notified = s.notified :=
    hframe'.notified.trans hframe.notified
  have hbase : (s.pending.foldl (send accepts) s₁.goLive).base = s.base :=
    hframe'.base.trans hframe.base
  refine ⟨?_, fun hcap => ?_, fun hcap e he => ?_⟩
  · rw [hbase, hnotified]
    exact htold.base
  · rw [hnotified]
    rw [hbase] at hcap
    rcases hclosed : s₁.closed with _ | _
    · have hparts : s.notified = s.notified.take s.base ++ (s.pending ++ []) := by
        rw [htold.pending, append_nil, take_append_drop]
      have hlast : (s.notified.take s.base).length ≤ s₁.lastSequence := by
        have hopen := hreplay.2 hclosed
        have hafter := hreplay.1.1
        rw [length_take]
        omega
      have hsent := sent_foldl accepts (s := s₁.goLive) (hparts ▸ hlog) (hparts ▸ hreplay.1) hlast
      rw [← hparts] at hsent
      refine ⟨hsent.1, fun hopen => le_of_eq_of_le ?_ (hsent.2 hopen)⟩
      rw [htold.pending, length_take, length_drop]
      have := htold.base
      omega
    · rw [foldl_closed (s := s₁.goLive) hclosed]
      exact ⟨hreplay.1, fun hopen => Bool.noConfusion (hclosed.symm.trans hopen)⟩
  · rw [hbase] at hcap
    rcases mem_foldl he with hfirst | hpending
    · have := hreceived e hfirst
      omega
    · rw [htold.pending] at hpending
      have := hlog.lt_of_mem_drop hpending
      omega

variable (accepts) in
theorem delivered_listener (h : Delivered maxReplay afterSequence s) {event : Event β}
    (hlog : Numbered Event.sequence (s.notified ++ [event]))
    (hsequence : event.sequence = s.notified.length + 1) :
    Delivered maxReplay afterSequence (send accepts (s.told event) event) := by
  have hframe := framed_send accepts (s.told event) event
  have hnotified : (send accepts (s.told event) event).notified = s.notified ++ [event] :=
    hframe.notified
  have hbase : (send accepts (s.told event) event).base = s.base := hframe.base
  refine ⟨?_, fun hcap => ?_, fun hcap e he => ?_⟩
  · rw [hbase, hnotified, length_append]
    exact h.base.trans (Nat.le_add_right _ _)
  · rw [hbase] at hcap
    rw [hnotified]
    obtain ⟨hsent, hlast⟩ := h.complete hcap
    by_cases hclosed : s.closed = true
    · rw [send_closed (s := s.told event) hclosed]
      exact ⟨hsent.append [event], fun hopen => Bool.noConfusion (hclosed.symm.trans hopen)⟩
    · rw [length_append]
      exact sent_send accepts (s := s.told event) hlog (hsent.append [event])
        (hlast (Bool.eq_false_iff.mpr hclosed))
  · rw [hbase] at hcap
    rcases mem_foldl (l := [event]) he with hbefore | hevent
    · exact h.gap hcap e hbefore
    · have := h.base
      rw [mem_singleton.mp hevent, hsequence]
      omega

theorem Waiting.told (h : Waiting afterSequence s) (event : Event β) :
    Waiting afterSequence (s.told event) :=
  ⟨h.last, h.received, h.closed⟩

theorem Waiting.defer (h : Waiting afterSequence s) (event : Event β) :
    Waiting afterSequence (s.defer event) :=
  ⟨h.last, h.received, h.closed⟩

theorem Told.told (h : Told s) (event : Event β) : Told ((s.told event).defer event) := by
  refine ⟨h.base.trans (by simp [State.told, State.defer]), ?_⟩
  change s.pending ++ [event] = (s.notified ++ [event]).drop s.base
  rw [drop_append_of_le_length h.base, h.pending]

theorem Inv.notify (h : Inv maxReplay afterSequence s) {event : Event β}
    (hwritten : s.written = some event) :
    Inv maxReplay afterSequence (listener accepts (s.told event) event) := by
  have hsequence := h.next event hwritten
  have hlog : Numbered Event.sequence (s.notified ++ [event]) := h.numbered.concat hsequence
  have hlistener : listener accepts (s.told event) event = match s.phase with
      | .idle => s.told event
      | .reading | .read _ => (s.told event).defer event
      | .live => send accepts (s.told event) event := rfl
  rw [hlistener]
  rcases hp : s.phase with _ | _ | replay | _
  · obtain ⟨hwaiting, hpending⟩ := (atPhase_idle maxReplay hp).mp h.phase
    have hidle := (atPhase_idle maxReplay (s := s.told event) hp).mpr
      ⟨hwaiting.told event, hpending⟩
    exact ⟨hlog, nofun, hidle⟩
  · obtain ⟨hwaiting, htold⟩ := (atPhase_reading maxReplay hp).mp h.phase
    have hreading := (atPhase_reading maxReplay
      (s := (s.told event).defer event) hp).mpr
        ⟨(hwaiting.told event).defer event, htold.told event⟩
    exact ⟨hlog, nofun, hreading⟩
  · obtain ⟨hwaiting, htold, m, hm, hm', hreplay⟩ := (atPhase_read maxReplay hp).mp h.phase
    have hread := (atPhase_read maxReplay (s := (s.told event).defer event) hp).mpr
      ⟨(hwaiting.told event).defer event, htold.told event, m, hm, hm'.trans (by simp [State.told,
        State.defer]), hreplay.trans (take_drop_append (by omega) [event]).symm⟩
    exact ⟨hlog, nofun, hread⟩
  · have hdelivered := delivered_listener accepts ((atPhase_live hp).mp h.phase) hlog
      hsequence
    have hframe := framed_send accepts (s.told event) event
    refine ⟨?_, ?_, (atPhase_live (hframe.phase.trans hp)).mpr hdelivered⟩
    · rw [hframe.notified]
      exact hlog
    · rw [hframe.written]
      exact nofun

theorem Inv.replay (h : Inv maxReplay afterSequence s) {replay : List (Event β)}
    (hp : s.phase = .read replay) : Inv maxReplay afterSequence
      (s.pending.foldl (send accepts) (replay.foldl (send accepts) s).goLive) := by
  obtain ⟨hwaiting, htold, m, hm, hm', rfl⟩ := (atPhase_read maxReplay hp).mp h.phase
  have hdelivered := delivered_replay accepts maxReplay h.numbered hwaiting htold hm hm'
  have hframe := framed_foldl accepts s
    ((s.notified.drop afterSequence).take (min (m - afterSequence) maxReplay))
  have hframe' := framed_foldl accepts
    (((s.notified.drop afterSequence).take (min (m - afterSequence) maxReplay)).foldl
      (send accepts) s).goLive s.pending
  have hnotified := hframe'.notified.trans hframe.notified
  have hwritten := hframe'.written.trans hframe.written
  refine ⟨?_, ?_, (atPhase_live hframe'.phase).mpr hdelivered⟩
  · rw [hnotified]
    exact h.numbered
  · rw [hwritten, hnotified]
    exact h.next

theorem AtPhase.append (h : AtPhase maxReplay afterSequence s) (event : Event β) :
    AtPhase maxReplay afterSequence { s with written := some event } := by
  rcases hp : s.phase with _ | _ | replay | _
  · obtain ⟨hwaiting, hpending⟩ := (atPhase_idle maxReplay hp).mp h
    exact (atPhase_idle maxReplay rfl).mpr ⟨⟨hwaiting.last, hwaiting.received, hwaiting.closed⟩, hpending⟩
  · obtain ⟨hwaiting, htold⟩ := (atPhase_reading maxReplay hp).mp h
    exact (atPhase_reading maxReplay rfl).mpr
      ⟨⟨hwaiting.last, hwaiting.received, hwaiting.closed⟩, ⟨htold.base, htold.pending⟩⟩
  · obtain ⟨hwaiting, htold, hreplay⟩ := (atPhase_read maxReplay hp).mp h
    exact (atPhase_read maxReplay rfl).mpr
      ⟨⟨hwaiting.last, hwaiting.received, hwaiting.closed⟩, ⟨htold.base, htold.pending⟩, hreplay⟩
  · have hdelivered := (atPhase_live hp).mp h
    exact (atPhase_live rfl).mpr ⟨hdelivered.base, hdelivered.complete, hdelivered.gap⟩

theorem Inv.step (h : Inv maxReplay afterSequence s) (action : Action β) :
    Inv maxReplay afterSequence (step accepts maxReplay afterSequence s action) := by
  cases action with
  | append body =>
    rw [Stream.step]
    split_ifs with hfree
    · refine ⟨h.numbered, fun e he => ?_, h.phase.append _⟩
      obtain rfl := some.inj he
      rw [State.ledger, isNone_iff_eq_none.mp hfree]
      simp
    · exact h
  | notify =>
    rw [Stream.step]
    split
    · exact h.notify ‹_›
    · exact h
  | subscribe =>
    rw [Stream.step]
    split
    · obtain ⟨hwaiting, hpending⟩ := (atPhase_idle maxReplay ‹_›).mp h.phase
      refine ⟨h.numbered, h.next, (atPhase_reading maxReplay rfl).mpr
        ⟨⟨hwaiting.last, hwaiting.received, hwaiting.closed⟩, le_rfl, ?_⟩⟩
      exact hpending.trans (drop_length ..).symm
    · exact h
  | readEvents =>
    rw [Stream.step]
    split
    · split_ifs with hfree
      · obtain ⟨hwaiting, htold⟩ := (atPhase_reading maxReplay ‹_›).mp h.phase
        refine ⟨h.numbered, h.next, (atPhase_read maxReplay rfl).mpr
          ⟨⟨hwaiting.last, hwaiting.received, hwaiting.closed⟩, ⟨htold.base, htold.pending⟩,
            s.notified.length, htold.base, le_rfl, ?_⟩⟩
        rw [State.ledger, isNone_iff_eq_none.mp hfree, toList_none, append_nil,
          h.numbered.behind_eq_drop, take_eq_take_iff, length_drop]
        omega
      · exact h
    · exact h
  | replay =>
    rw [Stream.step]
    split
    case h_1 replay hp =>
      obtain ⟨-, htold, -⟩ := (atPhase_read maxReplay hp).mp h.phase
      have hframe := framed_foldl accepts s replay
      have hpending : (replay.foldl (send accepts) s).goLive.pending = s.pending := hframe.pending
      dsimp only
      rw [hpending, h.numbered.insertionSort_eq (htold.pending ▸ drop_sublist _ _)]
      exact h.replay hp
    case h_2 => exact h

/-! ### Runs -/

theorem inv_run (actions : List (Action β)) :
    Inv maxReplay afterSequence (run accepts maxReplay afterSequence actions) := by
  have hfrom : ∀ s : State β, Inv maxReplay afterSequence s →
      Inv maxReplay afterSequence (actions.foldl (step accepts maxReplay afterSequence) s) := by
    induction actions with
    | nil => exact fun _ h => h
    | cons action actions ih => exact fun s h => ih _ (h.step action)
  exact hfrom _ .new

theorem drop_ids (hlog : Numbered Event.sequence log) (afterSequence : ℕ) :
    (log.drop afterSequence).map Event.sequence =
      range' (afterSequence + 1) (log.length - afterSequence) := by
  rw [map_drop, hlog, drop_range', Nat.mul_one, Nat.add_comm]

theorem Sent.ids (hlog : Numbered Event.sequence log) (h : Sent log afterSequence last received) :
    received.map Event.sequence = range' (afterSequence + 1) received.length := by
  obtain ⟨more, hmore⟩ := h.2
  have hids := drop_ids hlog afterSequence
  rw [← length_drop, ← hmore, map_append, length_append, ← range'_append_1] at hids
  exact (append_inj hids (by simp)).1

theorem Inv.ids (h : Inv maxReplay afterSequence s) (hcap : s.base ≤ afterSequence + maxReplay) :
    s.received.map Event.sequence = range' (afterSequence + 1) s.received.length := by
  have hnone : Waiting afterSequence s → s.received.map Event.sequence =
      range' (afterSequence + 1) s.received.length := by
    intro hwaiting
    rw [hwaiting.received]
    rfl
  rcases hp : s.phase with _ | _ | replay | _
  · exact hnone ((atPhase_idle maxReplay hp).mp h.phase).1
  · exact hnone ((atPhase_reading maxReplay hp).mp h.phase).1
  · exact hnone ((atPhase_read maxReplay hp).mp h.phase).1
  · exact (((atPhase_live hp).mp h.phase).complete hcap).1.ids h.numbered

/-- What a client with a cursor receives has no gap, and when live events are delivered it has got
all that listeners were told of, just if the backlog at its subscription is within the cap. -/
theorem stream_gapless_iff (accepts : ℕ → Bool) (maxReplay afterSequence : ℕ)
    (actions : List (Action β)) :
    let s := run accepts maxReplay afterSequence actions
    (s.base ≤ afterSequence + maxReplay → s.received.map Event.sequence =
        range' (afterSequence + 1) s.received.length) ∧
      (s.phase = .live → s.closed = false → (s.received.map Event.sequence =
          range' (afterSequence + 1) (s.notified.length - afterSequence) ↔
        s.base ≤ afterSequence + maxReplay)) := by
  intro s
  have h : Inv maxReplay afterSequence s := inv_run actions
  refine ⟨h.ids, fun hlive hopen => ⟨fun hids => ?_, fun hcap => ?_⟩⟩
  · by_contra hcap
    have hdelivered := (atPhase_live hlive).mp h.phase
    have hbase := hdelivered.base
    have hmem : afterSequence + maxReplay + 1 ∈ s.received.map Event.sequence := by
      rw [hids, mem_range'_1]
      omega
    obtain ⟨e, he, hsequence⟩ := mem_map.mp hmem
    exact hdelivered.gap (not_le.mp hcap) e he hsequence
  · obtain ⟨hsent, hlast⟩ := ((atPhase_live hlive).mp h.phase).complete hcap
    rw [hsent.eq_drop (hlast hopen), drop_ids h.numbered]

/-- Two events are told of in front of the subscription and one behind the reading. -/
def handover : List (Action Unit) :=
  [.append (), .notify, .append (), .notify, .subscribe, .readEvents, .append (), .notify, .replay]

theorem stream_gapless_handover :
    ((run (fun _ => true) 2 0 handover).received.map Event.sequence = [1, 2, 3]) :=
  ((stream_gapless_iff (fun _ => true) 2 0 handover).2 rfl rfl).mpr (by decide)

/-- With a cap of one the second event is left out. -/
theorem stream_skips : ¬∀ (accepts : ℕ → Bool) (maxReplay afterSequence : ℕ)
    (actions : List (Action Unit)), (run accepts maxReplay afterSequence actions).closed = false →
      (run accepts maxReplay afterSequence actions).received.map Event.sequence =
        range' (afterSequence + 1)
          (run accepts maxReplay afterSequence actions).received.length := by
  intro h
  exact absurd (h (fun _ => true) 1 0 handover rfl) (by decide)

end Ds4Studio.Evolution.Stream
