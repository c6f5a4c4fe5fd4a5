import Ds4Studio.Agno.Exclusion

/-!
Cancelling a run of the tool bridge. The cancellation aborts and drops the record that is
found under the ids it names; nothing is kept of it besides.
-/

namespace Ds4Studio.Agno

open List Option Function

open Ds4Studio.Json (JsString js)

/-! ### The registry -/

/-- A registered record is there, under the key of its run, and not aborted. -/
structure ToolSessions.Sound (t : ToolSessions) : Prop where
  registered : ∀ key r, t.sessions key = some r →
    ∃ record, t.record r = some record ∧ record.run.key = key ∧ record.aborted = false
  bound : ∀ r, t.next ≤ r → t.record r = none

/-- Records stay, and one that leaves the registry is aborted. -/
structure Evolves (now : ℕ) (t t' : ToolSessions) : Prop where
  record : ∀ r record, t.record r = some record → ∃ record', t'.record r = some record' ∧
    record'.run = record.run ∧
      (record'.lastSeenAt = record.lastSeenAt ∨ record'.lastSeenAt = now)
  dropped : ∀ key r, t.sessions key = some r →
    t'.sessions key = some r ∨ t'.aborted r = true

variable {t : ToolSessions} {r : ℕ}

theorem ToolSessions.Sound.not_aborted (h : t.Sound) {key : JsString}
    (hkey : t.sessions key = some r) : t.aborted r = false := by
  obtain ⟨record, hrecord, -, haborted⟩ := h.registered key r hkey
  simp [ToolSessions.aborted, hrecord, haborted]

theorem ToolSessions.Sound.lt_next (h : t.Sound) {record : Record}
    (hrecord : t.record r = some record) : r < t.next := by
  by_contra hle
  rw [h.bound r (Nat.le_of_not_lt hle)] at hrecord
  cases hrecord

theorem ToolSessions.Sound.key_eq (h : t.Sound) {key other : JsString}
    (hkey : t.sessions key = some r) (hother : t.sessions other = some r) : key = other := by
  obtain ⟨record, hrecord, rfl, -⟩ := h.registered key r hkey
  obtain ⟨record', hrecord', rfl, -⟩ := h.registered other r hother
  rw [hrecord] at hrecord'
  rw [some.inj hrecord']

/-- What a call gets from the registry. -/
structure Taken (now : ℕ) (context : Context) (t t' : ToolSessions) (r : ℕ) : Prop where
  sound : t'.Sound
  evolves : Evolves now t t'
  kept : ∀ key r, t.sessions key = some r → t'.sessions key = some r
  aborted : ∀ r record, t.record r = some record → t'.aborted r = t.aborted r
  run : ∃ run record, context.run = .ok run ∧ t'.sessions run.key = some r ∧
    t'.record r = some record ∧ record.lastSeenAt = now

/-- The record of a run is seen again. -/
def ToolSessions.seen (now r : ℕ) (record : Record) (t : ToolSessions) : ToolSessions :=
  { t with record := update t.record r (some { record with lastSeenAt := now }) }

/-- A record is made. -/
def ToolSessions.created (now : ℕ) (run : ToolRun) (userId : Option JsString) (t : ToolSessions) :
    ToolSessions where
  record := update t.record t.next (some ⟨run, userId, now, false⟩)
  sessions := update t.sessions run.key (some t.next)
  next := t.next + 1

variable {context : Context} {now : ℕ}

theorem getOrCreate_cases {t t' : ToolSessions} (h : t.Sound)
    (hget : t.getOrCreate now context = .ok (t', r)) :
    ∃ run, context.run = .ok run ∧
      ((∃ record, t.sessions run.key = some r ∧ t.record r = some record ∧
          t' = t.seen now r record) ∨
        (t.sessions run.key = none ∧ r = t.next ∧ ∃ userId, t' = t.created now run userId)) := by
  unfold ToolSessions.getOrCreate at hget
  cases hrun : context.run with
  | error e =>
    rw [hrun] at hget
    cases hget
  | ok run =>
    rw [hrun] at hget
    simp only [bind, Except.bind] at hget
    refine ⟨run, rfl, ?_⟩
    cases hkey : t.sessions run.key with
    | some found =>
      rw [hkey] at hget
      obtain ⟨record, hrecord, -⟩ := h.registered run.key found hkey
      cases hget
      refine .inl ⟨record, rfl, hrecord, ?_⟩
      rw [hrecord]
      rfl
    | none =>
      rw [hkey] at hget
      cases huser : sanitizeOptionalExternalId context.userId "userId" with
      | error e =>
        rw [huser] at hget
        cases hget
      | ok userId =>
        rw [huser] at hget
        cases hget
        exact .inr ⟨rfl, rfl, userId, rfl⟩

theorem seen_taken {run : ToolRun} {record : Record} (h : t.Sound) (hrun : context.run = .ok run)
    (hkey : t.sessions run.key = some r) (hrecord : t.record r = some record) :
    Taken now context t (t.seen now r record) r := by
  have hself : (t.seen now r record).record r = some { record with lastSeenAt := now } :=
    update_self _ _ _
  have hother : ∀ {r'}, r' ≠ r → (t.seen now r record).record r' = t.record r' :=
    fun hne => update_of_ne hne _ _
  constructor
  case sound =>
    constructor
    case registered =>
      intro key r' hkey'
      obtain ⟨record', hrecord', hrunkey, haborted⟩ := h.registered key r' hkey'
      by_cases hr : r' = r
      · subst hr
        rw [hrecord] at hrecord'
        obtain rfl := some.inj hrecord'
        exact ⟨_, hself, hrunkey, haborted⟩
      · exact ⟨record', (hother hr).trans hrecord', hrunkey, haborted⟩
    case bound =>
      intro r' hr'
      have hne : r' ≠ r := fun hr => absurd (hr ▸ hr') (Nat.not_le_of_lt (h.lt_next hrecord))
      rw [hother hne]
      exact h.bound r' hr'
  case evolves =>
    refine ⟨fun r' record' hrecord' => ?_, fun key r' hkey' => .inl hkey'⟩
    by_cases hr : r' = r
    · subst hr
      rw [hrecord] at hrecord'
      obtain rfl := some.inj hrecord'
      exact ⟨_, hself, rfl, .inr rfl⟩
    · exact ⟨record', (hother hr).trans hrecord', rfl, .inl rfl⟩
  case kept => exact fun _ _ hkey' => hkey'
  case aborted =>
    intro r' record' hrecord'
    by_cases hr : r' = r
    · subst hr
      simp only [ToolSessions.aborted, hself, hrecord, any_some]
    · simp only [ToolSessions.aborted, hother hr]
  case run => exact ⟨run, _, hrun, hkey, hself, rfl⟩

theorem created_taken {run : ToolRun} (h : t.Sound) (hrun : context.run = .ok run)
    (hkey : t.sessions run.key = none) (userId : Option JsString) :
    Taken now context t (t.created now run userId) t.next := by
  have hself : (t.created now run userId).record t.next = some ⟨run, userId, now, false⟩ :=
    update_self _ _ _
  have hother : ∀ {r'}, r' ≠ t.next → (t.created now run userId).record r' = t.record r' :=
    fun hne => update_of_ne hne _ _
  have hfound : (t.created now run userId).sessions run.key = some t.next := update_self _ _ _
  have hkept : ∀ key r', t.sessions key = some r' →
      (t.created now run userId).sessions key = some r' := by
    intro key r' hkey'
    have hne : key ≠ run.key := fun hk => by
      rw [hk, hkey] at hkey'
      cases hkey'
    exact (update_of_ne hne _ _).trans hkey'
  have hold : ∀ {r' record'}, t.record r' = some record' → r' ≠ t.next :=
    fun hrecord' hr => absurd (h.lt_next hrecord') (by rw [hr]; exact Nat.lt_irrefl _)
  constructor
  case sound =>
    constructor
    case registered =>
      intro key r' hkey'
      by_cases hk : key = run.key
      · subst hk
        rw [hfound] at hkey'
        rw [← some.inj hkey']
        exact ⟨_, hself, rfl, rfl⟩
      · have hbefore : t.sessions key = some r' := (update_of_ne hk _ _).symm.trans hkey'
        obtain ⟨record', hrecord', hrunkey, haborted⟩ := h.registered key r' hbefore
        exact ⟨record', (hother (hold hrecord')).trans hrecord', hrunkey, haborted⟩
    case bound =>
      intro r' hr'
      have hlt : t.next < r' := hr'
      rw [hother (Nat.ne_of_gt hlt)]
      exact h.bound r' (Nat.le_of_lt hlt)
  case evolves =>
    refine ⟨fun r' record' hrecord' => ?_, fun key r' hkey' => .inl (hkept key r' hkey')⟩
    exact ⟨record', (hother (hold hrecord')).trans hrecord', rfl, .inl rfl⟩
  case kept => exact hkept
  case aborted =>
    intro r' record' hrecord'
    simp only [ToolSessions.aborted, hother (hold hrecord')]
  case run => exact ⟨run, _, hrun, hfound, hself, rfl⟩

theorem getOrCreate_taken {t t' : ToolSessions} (h : t.Sound)
    (hget : t.getOrCreate now context = .ok (t', r)) : Taken now context t t' r := by
  obtain ⟨run, hrun, ⟨record, hkey, hrecord, rfl⟩ | ⟨hkey, rfl, userId, rfl⟩⟩ :=
    getOrCreate_cases h hget
  · exact seen_taken h hrun hkey hrecord
  · exact created_taken h hrun hkey userId

/-- A step that aborts the records it drops, and no other. -/
structure Closes (gone : ℕ → Prop) (t t' : ToolSessions) : Prop where
  sound : t'.Sound
  evolves : ∀ now, Evolves now t t'
  aborted : ∀ r, ¬gone r → t'.aborted r = t.aborted r

theorem abort_any (o : Option Record) : (o.map Record.abort).any Record.aborted = o.isSome := by
  cases o <;> rfl

theorem cancelAndClose_closes (h : t.Sound) (run : ToolRun) :
    Closes (fun r => t.sessions run.key = some r) t (t.cancelAndClose run) := by
  unfold ToolSessions.cancelAndClose
  cases hkey : t.sessions run.key with
  | none =>
    refine ⟨h, fun now => ⟨fun r record hrecord => ⟨record, hrecord, rfl, .inl rfl⟩, ?_⟩, ?_⟩
    · exact fun key r hkey' => .inl hkey'
    · exact fun r _ => rfl
  | some r =>
    obtain ⟨record, hrecord, hrunkey, haborted⟩ := h.registered run.key r hkey
    have hother : ∀ {r'}, r' ≠ r → update t.record r ((t.record r).map Record.abort) r' =
        t.record r' := fun hne => update_of_ne hne _ _
    have hne : ∀ {key r'}, key ≠ run.key → t.sessions key = some r' → r' ≠ r := by
      rintro key r' hk hkey' rfl
      exact hk (h.key_eq hkey' hkey)
    constructor
    case sound =>
      constructor
      case registered =>
        intro key r' hkey'
        by_cases hk : key = run.key
        · rw [hk] at hkey'
          cases (update_self _ _ _).symm.trans hkey'
        · have hbefore : t.sessions key = some r' := (update_of_ne hk _ _).symm.trans hkey'
          obtain ⟨record', hrecord', hrest⟩ := h.registered key r' hbefore
          exact ⟨record', (hother (hne hk hbefore)).trans hrecord', hrest⟩
      case bound =>
        intro r' hr'
        have hrr : r' ≠ r := fun hr => absurd (hr ▸ hr') (Nat.not_le_of_lt (h.lt_next hrecord))
        exact (hother hrr).trans (h.bound r' hr')
    case evolves =>
      refine fun now => ⟨fun r' record' hrecord' => ?_, fun key r' hkey' => ?_⟩
      · by_cases hr : r' = r
        · subst hr
          refine ⟨record'.abort, ?_, rfl, .inl rfl⟩
          simp only [update_self, hrecord', map_some]
        · exact ⟨record', (hother hr).trans hrecord', rfl, .inl rfl⟩
      · by_cases hk : key = run.key
        · rw [hk, hkey] at hkey'
          rw [← some.inj hkey']
          refine .inr ?_
          simp only [ToolSessions.aborted, update_self, abort_any, hrecord, isSome_some]
        · exact .inl ((update_of_ne hk _ _).trans hkey')
    case aborted =>
      intro r' hgone
      have hrr : r' ≠ r := fun hr => hgone (by rw [hr])
      simp only [ToolSessions.aborted, hother hrr]

theorem sweep_closes (h : t.Sound) (now : ℕ) :
    Closes (fun r => t.swept now r = true) t (t.sweep now) := by
  have hrecord : ∀ r, (t.sweep now).record r =
      if t.registered r && t.swept now r then (t.record r).map Record.abort else t.record r :=
    fun _ => rfl
  have hsessions : ∀ key, (t.sweep now).sessions key =
      (t.sessions key).filter fun r => !t.swept now r := fun _ => rfl
  constructor
  case sound =>
    constructor
    case registered =>
      intro key r hkey
      rw [hsessions, filter_eq_some_iff] at hkey
      obtain ⟨record, hbefore, hrest⟩ := h.registered key r hkey.1
      refine ⟨record, ?_, hrest⟩
      rw [hrecord, if_neg (by simpa using fun _ => hkey.2)]
      exact hbefore
    case bound =>
      intro r hr
      rw [hrecord, h.bound r hr]
      split <;> rfl
  case evolves =>
    refine fun now' => ⟨fun r record hbefore => ?_, fun key r hkey => ?_⟩
    · rw [hrecord, hbefore]
      split
      · exact ⟨record.abort, rfl, rfl, .inl rfl⟩
      · exact ⟨record, rfl, rfl, .inl rfl⟩
    · cases hswept : t.swept now r with
      | false =>
        rw [hsessions, hkey]
        simp [hswept]
      | true =>
        refine .inr ?_
        obtain ⟨record, hbefore, rfl, -⟩ := h.registered key r hkey
        have hregistered : t.registered r = true := by simp [ToolSessions.registered, hbefore, hkey]
        simp only [ToolSessions.aborted, hrecord, hregistered, hswept, Bool.and_self, if_true,
          abort_any, hbefore, isSome_some]
  case aborted =>
    intro r hgone
    simp only [ToolSessions.aborted, hrecord]
    rw [if_neg (by simpa using fun _ => hgone)]

/-! ### Calls and their sessions -/

/-- The record of a call is the one of its run, and was seen since the call took it. -/
def Recorded (t : ToolSessions) (now : ℕ) (c : Call) : Prop :=
  ∀ r, c.record = some r → ∃ record run, t.record r = some record ∧ c.request.run = some run ∧
    record.run.key = run.key ∧ c.startedAt ≤ record.lastSeenAt ∧ record.lastSeenAt ≤ now

/-- The record of a call is registered. -/
def Registered (t : ToolSessions) (c : Call) : Prop :=
  ∀ r, c.record = some r → ∃ run, c.request.run = some run ∧ t.sessions run.key = some r

/-- A call in the queue is not aborted, and its session not closed. -/
structure Bridge.Waiting (s : Bridge) (c : Call) : Prop where
  aborted : s.aborted c = false
  registered : Registered s.sessions c

structure Bridge.Tracked (s : Bridge) : Prop where
  sound : s.Sound
  sessions : s.sessions.Sound
  recorded : ∀ i c, s.calls i = some c → Recorded s.sessions s.now c
  waiting : ∀ i c, s.calls i = some c → c.phase = .queued → s.Waiting c
  taken : ∀ i c run, s.calls i = some c → c.request.run = some run →
    c.phase.atGuard = false → (∀ succeeded, c.phase ≠ .ended succeeded) → c.record ≠ none

variable {cfg : Wrapper.Config} {s s' : Bridge} {a : Action} {c : Call}

theorem Recorded.evolves {t t' : ToolSessions} {now' : ℕ} (h : Recorded t now c)
    (hevolves : Evolves now' t t') (hnow : now ≤ now') : Recorded t' now' c := by
  intro r hr
  obtain ⟨record, run, hrecord, hrun, hkey, hstarted, hseen⟩ := h r hr
  obtain ⟨record', hrecord', hsame, hlast⟩ := hevolves.record r record hrecord
  refine ⟨record', run, hrecord', hrun, by rw [hsame, hkey], ?_⟩
  rcases hlast with hlast | hlast
  · rw [hlast]
    exact ⟨hstarted, hseen.trans hnow⟩
  · rw [hlast]
    exact ⟨hstarted.trans (hseen.trans hnow), le_rfl⟩

variable {c c' : Call}

theorem Recorded.of_same (h : Recorded t now c) (hrecord : c'.record = c.record)
    (hstarted : c'.startedAt = c.startedAt) (hrequest : c'.request = c.request) :
    Recorded t now c' := by
  unfold Recorded
  rw [hrecord, hstarted, hrequest]
  exact h

variable {i : ℕ}

/-- Only where it takes its session does a call change what it holds of it. -/
theorem Moves.same (h : Moves a i c c') (ha : a ≠ .acquire i) :
    c'.record = c.record ∧ c'.startedAt = c.startedAt ∧ c'.request = c.request := by
  cases h with
  | acquired record startedAt acquired hacquire hphase => exact absurd hacquire ha
  | _ => exact ⟨rfl, rfl, rfl⟩

theorem Moves.request (h : Moves a i c c') : c'.request = c.request := by
  cases h <;> rfl

/-- A call that is in the queue behind a step was there before, unless it was just acquired. -/
theorem Moves.queued (h : Moves a i c c') (ha : a ≠ .acquire i)
    (hqueued : c'.phase = .queued) :
    c' = c ∨ (a = .disconnect i ∧ c' = { c with gone := true }) := by
  cases h with
  | stay => exact .inl rfl
  | disconnected hdisconnect => exact .inr ⟨hdisconnect, rfl⟩
  | dropped gone hphase => cases hqueued
  | @checked answer hcheck hphase => exact absurd hqueued (c.afterStatus_ne_queued answer)
  | switched hcheck hphase => exact absurd hqueued (Verdict.phase_ne_queued _)
  | acquired record startedAt acquired hacquire hphase => exact absurd hacquire ha
  | leased hphase => cases hqueued
  | started hstart hphase => cases hqueued
  | ended succeeded hphase => cases hqueued

theorem dropAborted_queued {c' : Call} (hcall' : s.dropAborted.calls i = some c')
    (hqueued : c'.phase = .queued) : s.calls i = some c' ∧ s.aborted c' = false := by
  obtain ⟨c, hcall, rfl⟩ := map_eq_some_iff.1 hcall'
  split at hqueued
  · cases hqueued
  · rename_i hkept
    refine ⟨by rw [if_neg hkept]; exact hcall, ?_⟩
    rw [if_neg hkept]
    exact Bool.eq_false_iff.2 fun haborted => hkept ⟨hqueued, haborted⟩

/-- Of a queued call the listeners leave one whose session is still registered. -/
theorem Bridge.Waiting.dropAborted {t : Bridge} (hcall : t.dropAborted.calls i = some c)
    (hqueued : c.phase = .queued) (hbefore : Registered s.sessions c)
    (hevolves : ∀ now, Evolves now s.sessions t.sessions) : t.dropAborted.Waiting c := by
  obtain ⟨-, haborted⟩ := dropAborted_queued hcall hqueued
  refine ⟨haborted, fun r hr => ?_⟩
  obtain ⟨run, hrun, hkey⟩ := hbefore r hr
  refine ⟨run, hrun, ?_⟩
  rcases (hevolves 0).dropped run.key r hkey with hkept | hdropped
  · exact hkept
  · have : t.aborted c = true := by simp [Bridge.aborted, hr, hdropped]
    rw [haborted] at this
    cases this

theorem evolves_rfl (now : ℕ) (t : ToolSessions) : Evolves now t t :=
  ⟨fun _ record hrecord => ⟨record, hrecord, rfl, .inl rfl⟩, fun _ _ hkey => .inl hkey⟩

theorem aborted_congr (hsessions : s'.sessions = s.sessions) (hnow : s'.now = s.now) (c : Call) :
    s'.aborted c = s.aborted c := by
  unfold Bridge.aborted
  rw [hsessions, hnow]

theorem tracked_dropAborted {t : Bridge} (h : s.Tracked) (hsound : t.dropAborted.Sound)
    (hsessions : t.sessions.Sound) (hevolves : ∀ now, Evolves now s.sessions t.sessions)
    (hnow : s.now ≤ t.now)
    (hcalls : ∀ i c', t.calls i = some c' → ∃ c, s.calls i = some c ∧ c'.record = c.record ∧
      c'.startedAt = c.startedAt ∧ c'.request = c.request ∧ c'.phase = c.phase) :
    t.dropAborted.Tracked := by
  have hbefore : ∀ i c', t.dropAborted.calls i = some c' → ∃ c, s.calls i = some c ∧
      c'.record = c.record ∧ c'.startedAt = c.startedAt ∧ c'.request = c.request ∧
        (c'.phase = c.phase ∨ c'.phase = .ended false) := by
    intro i c' hcall'
    obtain ⟨d, hd, rfl⟩ := map_eq_some_iff.1 hcall'
    obtain ⟨c, hcall, hrecord, hstarted, hrequest, hphase⟩ := hcalls i d hd
    refine ⟨c, hcall, ?_⟩
    split
    · exact ⟨hrecord, hstarted, hrequest, .inr rfl⟩
    · exact ⟨hrecord, hstarted, hrequest, .inl hphase⟩
  constructor
  case sound => exact hsound
  case sessions => exact hsessions
  case recorded =>
    intro i c' hcall'
    obtain ⟨c, hcall, hrecord, hstarted, hrequest, -⟩ := hbefore i c' hcall'
    exact ((h.recorded i c hcall).evolves (hevolves t.now) hnow).of_same hrecord hstarted hrequest
  case waiting =>
    intro i c' hcall' hqueued
    obtain ⟨c, hcall, hrecord, -, hrequest, hphase⟩ := hbefore i c' hcall'
    have hwas : c.phase = .queued := by
      rcases hphase with hphase | hphase
      · rw [← hphase, hqueued]
      · rw [hqueued] at hphase
        cases hphase
    refine Bridge.Waiting.dropAborted hcall' hqueued ?_ hevolves
    unfold Registered
    rw [hrecord, hrequest]
    exact (h.waiting i c hcall hwas).registered
  case taken =>
    intro i c' run hcall' hrun hguard hended
    obtain ⟨c, hcall, hrecord, -, hrequest, hphase⟩ := hbefore i c' hcall'
    rcases hphase with hphase | hphase
    · rw [hrecord]
      rw [hrequest] at hrun
      rw [hphase] at hguard hended
      exact h.taken i c run hcall hrun hguard hended
    · exact absurd hphase (hended false)

theorem Moves.taken (h : Moves a i c c') (ha : a ≠ .acquire i)
    (hguard : c'.phase.atGuard = false) (hended : ∀ succeeded, c'.phase ≠ .ended succeeded) :
    c.phase.atGuard = false ∧ ∀ succeeded, c.phase ≠ .ended succeeded := by
  cases h with
  | stay => exact ⟨hguard, hended⟩
  | disconnected hdisconnect => exact ⟨hguard, hended⟩
  | dropped gone hphase => exact absurd rfl (hended false)
  | @checked answer hcheck hphase =>
    have hverdict : ∀ v : Verdict, v.phase.atGuard = true := fun v => by cases v <;> rfl
    have hat : (c.afterStatus answer).atGuard = true := by
      unfold Call.afterStatus
      split <;> exact hverdict _
    rw [show (c.afterStatus answer).atGuard = false from hguard] at hat
    cases hat
  | @switched answer hcheck hphase => cases answer <;> cases hguard
  | acquired record startedAt acquired hacquire hphase => exact absurd hacquire ha
  | leased hphase => rw [hphase]; exact ⟨rfl, fun _ h => by cases h⟩
  | started hstart hphase => rw [hphase]; exact ⟨rfl, fun _ h => by cases h⟩
  | ended succeeded hphase => exact absurd rfl (hended succeeded)

theorem tracked_quiet (hstep : Step cfg s a s') (h : s.Tracked)
    (hsessions : s'.sessions = s.sessions) (hnow : s'.now = s.now)
    (hacquire : ∀ i, a ≠ .acquire i) (hdisconnect : ∀ i, a ≠ .disconnect i) : s'.Tracked := by
  have hmoves : ∀ i c', s'.calls i = some c' → c' = Call.new c'.request ∨
      ∃ c, s.calls i = some c ∧ Moves a i c c' := by
    intro i c' hcall'
    rcases hstep.moves h.sound.coherent hcall' with ⟨request, -, -, rfl⟩ | hmoves
    · exact .inl rfl
    · exact .inr hmoves
  constructor
  case sound => exact hstep.sound h.sound
  case sessions =>
    rw [hsessions]
    exact h.sessions
  case recorded =>
    intro i c' hcall'
    rw [hsessions, hnow]
    rcases hmoves i c' hcall' with hnew | ⟨c, hcall, hmove⟩
    · intro r hr
      rw [hnew] at hr
      cases hr
    · obtain ⟨hrecord, hstarted, hrequest⟩ := hmove.same (hacquire i)
      exact (h.recorded i c hcall).of_same hrecord hstarted hrequest
  case waiting =>
    intro i c' hcall' hqueued
    rcases hmoves i c' hcall' with hnew | ⟨c, hcall, hmove⟩
    · rw [hnew] at hqueued
      cases hqueued
    · rcases hmove.queued (hacquire i) hqueued with rfl | ⟨ha, -⟩
      · obtain ⟨haborted, hregistered⟩ := h.waiting i c' hcall hqueued
        refine ⟨?_, ?_⟩
        · rw [aborted_congr hsessions hnow]
          exact haborted
        · rw [hsessions]
          exact hregistered
      · exact absurd ha (hdisconnect i)
  case taken =>
    intro i c' run hcall' hrun hguard hended
    rcases hmoves i c' hcall' with hnew | ⟨c, hcall, hmove⟩
    · rw [hnew] at hguard
      cases hguard
    · obtain ⟨hrecord, -, hrequest⟩ := hmove.same (hacquire i)
      rw [hrequest] at hrun
      obtain ⟨hguard', hended'⟩ := hmove.taken (hacquire i) hguard hended
      rw [hrecord]
      exact h.taken i c run hcall hrun hguard' hended'

theorem sessions_setGate (s : Bridge) (kind : Kind) (g : Gate) :
    (s.setGate kind g).sessions = s.sessions ∧ (s.setGate kind g).now = s.now := by
  cases kind <;> exact ⟨rfl, rfl⟩

theorem sessions_acquireGate (s : Bridge) (i : ℕ) (c : Call) :
    (s.acquireGate i c).sessions = s.sessions ∧ (s.acquireGate i c).now = s.now :=
  sessions_setGate _ _ _

theorem acquired_queued {s : Bridge}
    (h : ((s.gate c.request.kind).acquire c.request.kind (s.aborted c) i).2.phase = .queued) :
    s.aborted c = false := by
  rcases acquire_queue c.request.kind (s.aborted c) i (s.gate c.request.kind) with
    ⟨-, haborted, -⟩ | ⟨hnot, -⟩
  · exact haborted
  · generalize ((s.gate c.request.kind).acquire c.request.kind (s.aborted c) i).2 = acquired at *
    cases acquired with
    | queued => exact absurd rfl hnot
    | leased => cases h
    | rejected code => cases h

theorem tracked_taken {i : ℕ} {name : Tool} (h : s.Tracked) (hsound : (s.acquire i c).Sound)
    (hcall : s.calls i = some c) (hrequest : c.request = .tool name context)
    (hget : s.sessions.getOrCreate s.now context = .ok (t, r)) : (s.acquire i c).Tracked := by
  have htaken := getOrCreate_taken h.sessions hget
  obtain ⟨run, record, hrun, hkey, hrecord, hlast⟩ := htaken.run
  have hrunOf : c.request.run = some run := by
    rw [hrequest]
    simp [Request.run, hrun, Except.toOption]
  obtain ⟨record', hrecord', hrunkey, -⟩ := htaken.sound.registered run.key r hkey
  rw [hrecord] at hrecord'
  obtain rfl := some.inj hrecord'
  let c₁ : Call := { c with record := some r, startedAt := s.now }
  let s₁ : Bridge := { s with sessions := t, calls := update s.calls i (some c₁) }
  have hacquire : s.acquire i c = s₁.acquireGate i c₁ := by
    unfold Bridge.acquire
    split
    · rename_i hmodel
      cases hrequest.symm.trans hmodel
    · rename_i hsame
      cases hrequest.symm.trans hsame
      simp only [hget]
      rfl
  obtain ⟨hsessions, hnow⟩ := sessions_acquireGate s₁ i c₁
  rw [hacquire] at hsound ⊢
  -- The call itself has the session it took; of the others nothing changes but the registry.
  have hcases : ∀ j c', (s₁.acquireGate i c₁).calls j = some c' →
      (j = i ∧ c' = { c₁ with phase := ((s₁.gate c₁.request.kind).acquire c₁.request.kind
        (s₁.aborted c₁) i).2.phase }) ∨ (j ≠ i ∧ s.calls j = some c') := by
    intro j c' hcall'
    rw [calls_acquireGate] at hcall'
    obtain ⟨d, hd, ⟨rfl, rfl⟩ | ⟨hne, rfl⟩⟩ := calls_setPhase_eq_some hcall'
    · change update s.calls j (some c₁) j = some d at hd
      rw [update_self] at hd
      obtain rfl := some.inj hd
      exact .inl ⟨rfl, rfl⟩
    · change update s.calls i (some c₁) j = some c' at hd
      rw [update_of_ne hne] at hd
      exact .inr ⟨hne, hd⟩
  constructor
  case sound => exact hsound
  case sessions =>
    rw [hsessions]
    exact htaken.sound
  case recorded =>
    intro j c' hcall'
    rw [hsessions, hnow]
    rcases hcases j c' hcall' with ⟨-, rfl⟩ | ⟨-, hbefore⟩
    · intro r' hr'
      obtain rfl := some.inj hr'
      exact ⟨record, run, hrecord, hrunOf, hrunkey, hlast.ge, hlast.le⟩
    · exact (h.recorded j c' hbefore).evolves htaken.evolves le_rfl
  case waiting =>
    intro j c' hcall' hqueued
    rcases hcases j c' hcall' with ⟨-, rfl⟩ | ⟨-, hbefore⟩
    · constructor
      case aborted =>
        rw [aborted_congr hsessions hnow]
        exact acquired_queued hqueued
      case registered =>
        intro r' hr'
        obtain rfl := some.inj hr'
        rw [hsessions]
        exact ⟨run, hrunOf, hkey⟩
    · obtain ⟨haborted, hregistered⟩ := h.waiting j c' hbefore hqueued
      constructor
      case aborted =>
        rw [aborted_congr hsessions hnow, ← haborted]
        unfold Bridge.aborted
        cases hr : c'.record with
        | none => rfl
        | some r' =>
          obtain ⟨record', -, hrecord', -⟩ := h.recorded j c' hbefore r' hr
          simp only [any_some]
          rw [htaken.aborted r' record' hrecord']
      case registered =>
        intro r' hr'
        obtain ⟨run', hrun', hkey'⟩ := hregistered r' hr'
        rw [hsessions]
        exact ⟨run', hrun', htaken.kept _ _ hkey'⟩
  case taken =>
    intro j c' run' hcall' hrun' hguard hended
    rcases hcases j c' hcall' with ⟨-, rfl⟩ | ⟨-, hbefore⟩
    · exact some_ne_none r
    · exact h.taken j c' run' hbefore hrun' hguard hended

theorem tracked_untaken {phase : Phase} {t : Bridge} (h : s.Tracked) (hsound : t.Sound)
    (hcall : s.calls i = some c) (hphase : c.phase = .admitted)
    (hcalls : t.calls = (s.setPhase i phase).calls) (hsessions : t.sessions = s.sessions)
    (hnow : t.now = s.now) (hqueued : phase = .queued → s.aborted c = false)
    (htaken : c.request.run = none ∨ phase = .ended false) : t.Tracked := by
  have hrecord : c.record = none := h.sound.unrecorded i c hcall (by rw [hphase]; rfl)
  have hcases : ∀ j c', t.calls j = some c' →
      (j = i ∧ c' = { c with phase := phase }) ∨ (j ≠ i ∧ s.calls j = some c') := by
    intro j c' hcall'
    rw [hcalls] at hcall'
    obtain ⟨d, hd, ⟨rfl, rfl⟩ | ⟨hne, rfl⟩⟩ := calls_setPhase_eq_some hcall'
    · rw [hcall] at hd
      rw [some.inj hd]
      exact .inl ⟨rfl, rfl⟩
    · exact .inr ⟨hne, hd⟩
  constructor
  case sound => exact hsound
  case sessions =>
    rw [hsessions]
    exact h.sessions
  case recorded =>
    intro j c' hcall'
    rw [hsessions, hnow]
    rcases hcases j c' hcall' with ⟨-, rfl⟩ | ⟨-, hbefore⟩
    · intro r hr
      cases hrecord.symm.trans hr
    · exact h.recorded j c' hbefore
  case waiting =>
    intro j c' hcall' hwaits
    rcases hcases j c' hcall' with ⟨-, rfl⟩ | ⟨-, hbefore⟩
    · constructor
      case aborted =>
        rw [aborted_congr hsessions hnow]
        exact hqueued hwaits
      case registered => exact fun r hr => by cases hrecord.symm.trans hr
    · obtain ⟨haborted, hregistered⟩ := h.waiting j c' hbefore hwaits
      constructor
      case aborted =>
        rw [aborted_congr hsessions hnow]
        exact haborted
      case registered =>
        rw [hsessions]
        exact hregistered
  case taken =>
    intro j c' run hcall' hrun hguard hended
    rcases hcases j c' hcall' with ⟨-, rfl⟩ | ⟨-, hbefore⟩
    · rcases htaken with hnone | rfl
      · cases hnone.symm.trans hrun
      · exact absurd rfl (hended false)
    · exact h.taken j c' run hbefore hrun hguard hended

theorem Step.tracked (hstep : Step cfg s a s') (h : s.Tracked) : s'.Tracked := by
  have hsound := hstep.sound h.sound
  have hwhole := hstep
  cases hstep with
  | @acquire i c hcall hphase =>
    cases hrequest : c.request with
    | model =>
      have hacquire : s.acquire i c = s.acquireGate i c := by
        unfold Bridge.acquire
        rw [hrequest]
      rw [hacquire] at hsound ⊢
      exact tracked_untaken h hsound hcall hphase (calls_acquireGate s i c)
        (sessions_acquireGate s i c).1 (sessions_acquireGate s i c).2 acquired_queued
        (.inl (by rw [hrequest]; rfl))
    | tool name context =>
      cases hget : s.sessions.getOrCreate s.now context with
      | error e =>
        have hacquire : s.acquire i c = s.setPhase i (.ended false) := by
          unfold Bridge.acquire
          simp only [hrequest, hget]
        rw [hacquire] at hsound ⊢
        exact tracked_untaken h hsound hcall hphase rfl rfl rfl (fun hq => by cases hq) (.inr rfl)
      | ok taken => exact tracked_taken h hsound hcall hrequest hget
  | @disconnect i c hcall =>
    refine tracked_dropAborted h hsound h.sessions (fun now => evolves_rfl now _) le_rfl ?_
    intro j c' hcall'
    obtain ⟨d, hd, rfl⟩ := map_eq_some_iff.1 hcall'
    refine ⟨d, hd, ?_⟩
    by_cases hj : j = i
    · simp only [if_pos hj, and_self]
    · simp only [if_neg hj, and_self]
  | @cancel sessionId runId hsession hrun =>
    have hcloses := cancelAndClose_closes h.sessions ⟨sessionId, runId⟩
    exact tracked_dropAborted h hsound hcloses.sound hcloses.evolves le_rfl
      fun i c' hcall' => ⟨c', hcall', rfl, rfl, rfl, rfl⟩
  | sweep =>
    have hcloses := sweep_closes h.sessions s.now
    exact tracked_dropAborted h hsound hcloses.sound hcloses.evolves le_rfl
      fun i c' hcall' => ⟨c', hcall', rfl, rfl, rfl, rfl⟩
  | tick ms =>
    exact tracked_dropAborted h hsound h.sessions (fun now => evolves_rfl now _)
      (Nat.le_add_right _ _) fun i c' hcall' => ⟨c', hcall', rfl, rfl, rfl, rfl⟩
  | wrapper hwrapper | arrive request | status answer hcall hphase =>
    exact tracked_quiet hwhole h rfl rfl (fun _ ha => by cases ha)
      fun _ ha => by cases ha
  | switchAnswer answer hcall hphase =>
    exact tracked_quiet hwhole h rfl rfl (fun _ ha => by cases ha)
      fun _ ha => by cases ha
  | waitTimeout hcall hphase =>
    exact tracked_quiet hwhole h (sessions_setGate _ _ _).1
      (sessions_setGate _ _ _).2 (fun _ ha => by cases ha) fun _ ha => by cases ha
  | start hcall hphase hsent =>
    exact tracked_quiet hwhole h rfl rfl (fun _ ha => by cases ha)
      fun _ ha => by cases ha
  | retry => exact h
  | stop hcall hphase | finish succeeded hcall hphase =>
    exact tracked_quiet hwhole h (sessions_setGate _ _ _).1
      (sessions_setGate _ _ _).2 (fun _ ha => by cases ha) fun _ ha => by cases ha

/-! ### What is promised -/

def Call.over (c : Call) : Prop := c.phase = .refused ∨ ∃ succeeded, c.phase = .ended succeeded

/-- A call whose tool will not start any more. -/
def Call.settled (c : Call) : Prop := c.phase = .running ∨ c.over

/-- Once a run is cancelled none of its tools starts, and of its later calls none succeeds. A
cancellation changes no call of another run, and a sweep no call at all that is not over; a
call to come gets a live session. -/
structure OnlyCancelled (cfg : Wrapper.Config) (s : Bridge) (guard : Bridge → Action → Prop) :
    Prop where
  stopped : ∀ i c run n, s.calls i = some c → c.request.run = some run →
    (run, n) ∈ s.acknowledged →
      (∀ s', ¬Step cfg s (.start i) s') ∧ (n ≤ i → c.phase ≠ .ended true)
  cancel : ∀ sessionId runId s', Step cfg s (.cancel sessionId runId) s' →
    guard s (.cancel sessionId runId) → ∀ i c, s.calls i = some c → ¬c.over →
      (∀ run, c.request.run = some run → namedRun sessionId runId ≠ some run) →
        s'.calls i = some c ∧ s'.aborted c = s.aborted c
  sweep : ∀ s', Step cfg s .sweep s' → ∀ i c, s.calls i = some c → ¬c.over →
    s'.calls i = some c ∧ s'.aborted c = s.aborted c
  live : ∀ key r, s.sessions.sessions key = some r → s.sessions.aborted r = false

/-- The condition on a step:

* a cancelled run makes no further call,
* a cancellation spells its ids as they are recorded,
* when it comes, each call of its run waits in the queue, has started its tool or is over,
* and no call under way of another run has the same key. -/
def CancelsInTime (s : Bridge) : Action → Prop
  | .arrive request => ∀ run n, (run, n) ∈ s.acknowledged → request.run ≠ some run
  | .cancel sessionId runId =>
      (∀ run, namedRun sessionId runId = some run → run = ⟨sessionId, runId⟩) ∧
      (∀ i c, s.calls i = some c → c.request.run = namedRun sessionId runId →
        namedRun sessionId runId ≠ none → c.phase = .queued ∨ c.settled) ∧
      ∀ i c run, s.calls i = some c → c.request.run = some run →
        c.phase = .queued ∨ c.phase = .leased ∨ c.phase = .running →
          namedRun sessionId runId ≠ some run → run.key ≠ ToolRun.key ⟨sessionId, runId⟩
  | _ => True

/-! ### Sweeps and timeouts -/

theorem Tool.maxTimeoutMs_le (tool : Tool) : tool.maxTimeoutMs ≤ 120000 := by cases tool <;> decide

theorem Request.maxTimeoutMs_le (request : Request) : request.maxTimeoutMs ≤ 120000 := by
  cases request with
  | model => exact Nat.zero_le _
  | tool name context => exact name.maxTimeoutMs_le

theorem aborted_of_timeout {s : Bridge} (hr : c.record = some r)
    (hpassed : c.startedAt + c.request.maxTimeoutMs ≤ s.now) : s.aborted c = true := by
  simp [Bridge.aborted, hr, hpassed]

theorem swept_timeout (h : Recorded s.sessions s.now c) (hr : c.record = some r)
    (hswept : s.sessions.swept s.now r = true) : c.startedAt + c.request.maxTimeoutMs ≤ s.now := by
  obtain ⟨record, run, hrecord, -, -, hstarted, -⟩ := h r hr
  have hidle : idleTtlMs < s.now - record.lastSeenAt := by
    simpa [ToolSessions.swept, hrecord, Record.idle] using hswept
  have htimeout := c.request.maxTimeoutMs_le
  unfold idleTtlMs at hidle
  omega

theorem not_over_recorded {i : ℕ} (h : s.Tracked) (hcall : s.calls i = some c) (hover : ¬c.over)
    (hr : c.record = some r) : c.phase = .queued ∨ c.phase = .leased ∨ c.phase = .running := by
  have hguard := h.sound.unrecorded i c hcall
  cases hphase : c.phase with
  | queued => exact .inl rfl
  | leased => exact .inr (.inl rfl)
  | running => exact .inr (.inr rfl)
  | ended succeeded => exact absurd (.inr ⟨succeeded, hphase⟩) hover
  | _ => cases (hguard (by rw [hphase]; rfl)).symm.trans hr

/-- A call whose signal stays as it was is left alone by the listeners. -/
theorem dropAborted_same {t : Bridge} (h : s.Tracked) (hcall : s.calls i = some c)
    (hcalls : t.calls = s.calls) (haborted : t.aborted c = s.aborted c) :
    t.dropAborted.calls i = some c ∧ t.dropAborted.aborted c = s.aborted c := by
  refine ⟨?_, haborted⟩
  have hkept : ¬(c.phase = .queued ∧ t.aborted c = true) := by
    rintro ⟨hqueued, hyes⟩
    rw [haborted, (h.waiting i c hcall hqueued).aborted] at hyes
    cases hyes
  simp [Bridge.dropAborted, hcalls, hcall, hkept]

theorem aborted_of_sessions (h : ∀ r, c.record = some r → t.aborted r = s.sessions.aborted r) :
    ({ s with sessions := t } : Bridge).aborted c = s.aborted c := by
  unfold Bridge.aborted
  cases hr : c.record with
  | none => rfl
  | some r => simp only [any_some, h r hr]

/-! ### Runs -/

/-- Of a run that is cancelled no call starts a tool any more. -/
def Bridge.Stopped (s : Bridge) : Prop :=
  ∀ i c run n, s.calls i = some c → c.request.run = some run → (run, n) ∈ s.acknowledged →
    c.settled ∧ i < n

theorem Moves.settled (h : Moves a i c c') (hc : c.settled) : c'.settled := by
  have hnot : ∀ phase, c.phase = phase → phase = .running ∨ phase = .refused ∨
      ∃ succeeded, phase = .ended succeeded := by
    rintro phase rfl
    exact hc
  cases h with
  | stay => exact hc
  | disconnected ha => exact hc
  | dropped gone hphase => exact .inr (.inr ⟨false, rfl⟩)
  | checked ha hphase =>
    rcases hphase with hphase | hphase <;>
      rcases hnot _ hphase with hphase | hphase | ⟨_, hphase⟩ <;> cases hphase
  | switched ha hphase => rcases hnot _ hphase with hphase | hphase | ⟨_, hphase⟩ <;> cases hphase
  | acquired record startedAt acquired ha hphase =>
    rcases hnot _ hphase with hphase | hphase | ⟨_, hphase⟩ <;> cases hphase
  | leased hphase => rcases hnot _ hphase with hphase | hphase | ⟨_, hphase⟩ <;> cases hphase
  | started ha hphase => exact .inl rfl
  | ended succeeded hphase => exact .inr (.inr ⟨succeeded, rfl⟩)

theorem acknowledged_setGate (s : Bridge) (kind : Kind) (g : Gate) :
    (s.setGate kind g).acknowledged = s.acknowledged := by
  cases kind <;> rfl

theorem acknowledged_acquire (s : Bridge) (i : ℕ) (c : Call) :
    (s.acquire i c).acknowledged = s.acknowledged := by
  unfold Bridge.acquire
  split
  · exact acknowledged_setGate _ _ _
  · split
    · rfl
    · exact acknowledged_setGate _ _ _

theorem Step.acknowledged (hstep : Step cfg s a s') : s'.acknowledged = s.acknowledged ∨
    ∃ sessionId runId, a = .cancel sessionId runId := by
  cases hstep with
  | acquire => exact .inl (acknowledged_acquire _ _ _)
  | waitTimeout => exact .inl (acknowledged_setGate _ _ _)
  | stop => exact .inl (acknowledged_setGate _ _ _)
  | finish => exact .inl (acknowledged_setGate _ _ _)
  | @cancel sessionId runId => exact .inr ⟨sessionId, runId, rfl⟩
  | _ => exact .inl rfl

theorem cancel_queued {run : ToolRun} (h : s.Tracked) (hcall : s.calls i = some c)
    (hqueued : c.phase = .queued) (hrun : c.request.run = some run) :
    ({ s with sessions := s.sessions.cancelAndClose run } : Bridge).aborted c = true := by
  obtain ⟨r, hr⟩ := ne_none_iff_exists'.1 (h.taken i c run hcall hrun
    (by rw [hqueued]; rfl) (by rw [hqueued]; exact fun _ hphase => by cases hphase))
  obtain ⟨run', hrun', hkey⟩ := (h.waiting i c hcall hqueued).registered r hr
  obtain rfl := some.inj (hrun.symm.trans hrun')
  have hdropped := ((cancelAndClose_closes h.sessions run).evolves 0).dropped run.key r hkey
  have haborted : (s.sessions.cancelAndClose run).aborted r = true := by
    refine hdropped.resolve_left fun hkept => ?_
    unfold ToolSessions.cancelAndClose at hkept
    rw [hkey] at hkept
    cases (update_self _ _ _).symm.trans hkept
  simp [Bridge.aborted, hr, haborted]

theorem Step.stopped (hstep : Step cfg s a s') (h : s.Tracked) (hs : s.Stopped)
    (hcond : CancelsInTime s a) : s'.Stopped := by
  intro i c' run n hcall' hrun hmem
  rcases hstep.acknowledged with hsame | ⟨sessionId, runId, rfl⟩
  · rw [hsame] at hmem
    rcases hstep.moves h.sound.coherent hcall' with ⟨request, rfl, rfl, rfl⟩ | ⟨c, hcall, hmove⟩
    · exact absurd hrun (hcond run n hmem)
    · rw [hmove.request] at hrun
      obtain ⟨hsettled, hlt⟩ := hs i c run n hcall hrun hmem
      exact ⟨hmove.settled hsettled, hlt⟩
  · cases hstep with
    | cancel hsession hrunId =>
      obtain ⟨hspelled, hphases, -⟩ := hcond
      obtain ⟨c, hcall, hc'⟩ := map_eq_some_iff.1 hcall'
      rcases mem_append.1 hmem with hnew | hold
      · obtain ⟨named, hnamed, hpair⟩ := mem_map.1 hnew
        obtain ⟨rfl, rfl⟩ := Prod.mk.inj hpair
        rw [mem_toList] at hnamed
        have hlt : i < s.next := by
          by_contra hle
          rw [h.sound.coherent.fresh i (Nat.le_of_not_lt hle)] at hcall
          cases hcall
        refine ⟨?_, hlt⟩
        have hrunc : c.request.run = some named := by
          rw [← hc'] at hrun
          split at hrun <;> exact hrun
        rcases hphases i c hcall (hrunc.trans hnamed.symm) (by rw [hnamed]; simp) with
          hqueued | hsettled
        · have haborted := cancel_queued h hcall hqueued hrunc
          rw [hspelled named hnamed] at haborted
          rw [← hc', if_pos ⟨hqueued, haborted⟩]
          exact .inr (.inr ⟨false, rfl⟩)
        · rw [← hc']
          split
          · exact .inr (.inr ⟨false, rfl⟩)
          · exact hsettled
      · have hrunc : c.request.run = some run := by
          rw [← hc'] at hrun
          split at hrun <;> exact hrun
        obtain ⟨hsettled, hlt⟩ := hs i c run n hcall hrunc hold
        refine ⟨?_, hlt⟩
        rw [← hc']
        split
        · exact .inr (.inr ⟨false, rfl⟩)
        · exact hsettled

theorem startup_tracked (mode : Wrapper.Mode) (disk : String → Option (List ℕ))
    (limits : GateLimits) : (startup mode disk limits).Tracked where
  sound := startup_sound mode disk limits
  sessions := ⟨fun _ _ hkey => (by cases hkey), fun _ _ => rfl⟩
  recorded := fun _ _ hcall => by cases hcall
  waiting := fun _ _ hcall => by cases hcall
  taken := fun _ _ _ hcall => by cases hcall

/-- Where cancellations are in time, they stop the run they name and no other, and a sweep
stops nothing. -/
theorem only_cancelled {mode : Wrapper.Mode} {disk : String → Option (List ℕ)}
    {limits : GateLimits} {s : Bridge}
    (hrun : Run.Guarded (Step cfg) CancelsInTime (startup mode disk limits) s) :
    OnlyCancelled cfg s CancelsInTime := by
  have hinvariant : s.Tracked ∧ s.Stopped := by
    refine hrun.invariant (I := fun t => t.Tracked ∧ t.Stopped) ?_
      ⟨startup_tracked mode disk limits, fun _ _ _ _ hcall => by cases hcall⟩
    intro t a t' ht hstep hcond
    exact ⟨hstep.tracked ht.1, hstep.stopped ht.1 ht.2 hcond⟩
  obtain ⟨htracked, hstopped⟩ := hinvariant
  constructor
  case stopped =>
    intro i c run n hcall hrunc hmem
    obtain ⟨hsettled, hlt⟩ := hstopped i c run n hcall hrunc hmem
    refine ⟨fun s' hstep => ?_, fun hle => absurd hlt (Nat.not_lt_of_le hle)⟩
    cases hstep with
    | start hcall' hphase hsent =>
      obtain rfl := some.inj (hcall.symm.trans hcall')
      rcases hsettled with hrunning | hrefused | ⟨_, hended⟩
      · cases hrunning.symm.trans hphase
      · cases hrefused.symm.trans hphase
      · cases hended.symm.trans hphase
  case cancel =>
    rintro sessionId runId s' hstep ⟨-, -, hkeys⟩ i c hcall hover hother
    cases hstep with
    | cancel hsession hrunId =>
      have hcloses := cancelAndClose_closes htracked.sessions ⟨sessionId, runId⟩
      refine dropAborted_same htracked hcall rfl (aborted_of_sessions fun r hr => ?_)
      refine hcloses.aborted r fun hgone => ?_
      obtain ⟨record, run, hrecord, hrunc, hkey, -⟩ := htracked.recorded i c hcall r hr
      obtain ⟨record', hrecord', hkey', -⟩ := htracked.sessions.registered _ r hgone
      obtain rfl := some.inj (hrecord.symm.trans hrecord')
      exact hkeys i c run hcall hrunc (not_over_recorded htracked hcall hover hr)
        (hother run hrunc) (hkey.symm.trans hkey')
  case sweep =>
    intro s' hstep i c hcall hover
    cases hstep with
    | sweep =>
      have hcloses := sweep_closes htracked.sessions s.now
      refine dropAborted_same htracked hcall rfl ?_
      cases hr : c.record with
      | none => exact aborted_of_sessions fun r hr' => by cases hr.symm.trans hr'
      | some r =>
        cases hswept : s.sessions.swept s.now r with
        | false =>
          refine aborted_of_sessions fun r' hr' => hcloses.aborted r' ?_
          obtain rfl := some.inj (hr.symm.trans hr')
          rw [hswept]
          decide
        | true =>
          -- Its own timeout has aborted the call before.
          have hpassed := swept_timeout (htracked.recorded i c hcall) hr hswept
          rw [aborted_of_timeout hr hpassed]
          exact aborted_of_timeout hr hpassed
  case live => exact fun key r hkey => htracked.sessions.not_aborted hkey

def sampleToolRun : ToolRun := ⟨js "s", js "r"⟩

theorem sample_named : namedRun (js "s") (js "r") = some sampleToolRun := by decide

/-- One call runs and one waits when their run is cancelled. -/
theorem only_cancelled_waiting :
    ∃ s, OnlyCancelled Wrapper.sampleConfig s CancelsInTime ∧
      (sampleToolRun, 2) ∈ s.acknowledged ∧
      (∃ c, s.calls 0 = some c ∧ c.phase = .running) ∧
      ∃ c, s.calls 1 = some c ∧ c.phase = .ended false := by
  have hstart : Run.Guarded (Step Wrapper.sampleConfig) CancelsInTime
      (startup .server (fun _ => none) sampleLimits)
      (startup .server (fun _ => none) sampleLimits) := Run.Guarded.refl _
  have hnone : ∀ (run : ToolRun) (n : ℕ) (request : Request),
      (run, n) ∈ ([] : List (ToolRun × ℕ)) → request.run ≠ some run :=
    fun _ _ _ hmem => absurd hmem not_mem_nil
  have harrived := hstart.snoc (Step.arrive (sampleRequest "s" "r")) fun run n => hnone run n _
  have hadmitted := harrived.snoc (Step.status (i := 0) (statusOf "server" "ready") rfl (.inl rfl))
    trivial
  have hleased := hadmitted.snoc (Step.acquire (i := 0) rfl rfl) trivial
  have hrunning := hleased.snoc (Step.start (i := 0) rfl rfl (by decide)) trivial
  have harrived' := hrunning.snoc (Step.arrive (sampleRequest "s" "r")) fun run n => hnone run n _
  have hadmitted' := harrived'.snoc
    (Step.status (i := 1) (statusOf "server" "ready") rfl (.inl rfl)) trivial
  have hqueued := hadmitted'.snoc (Step.acquire (i := 1) rfl rfl) trivial
  have hcancelled := hqueued.snoc
    (Step.cancel (by decide : cancelId (js "s") = true) (by decide : cancelId (js "r") = true)) (by
      refine ⟨fun run hrun => (some.inj (sample_named.symm.trans hrun)).symm, ?_, ?_⟩
      · intro i c hcall _ _
        match i with
        | 0 => cases hcall; exact .inr (.inl rfl)
        | 1 => cases hcall; exact .inl rfl
        | n + 2 => cases hcall
      · intro i c run hcall hrun _ hother
        match i with
        | 0 | 1 => cases hcall; exact absurd (sample_named.trans hrun) hother
        | n + 2 => cases hcall)
  refine ⟨_, only_cancelled hcancelled, ?_, ⟨_, rfl, rfl⟩, _, rfl, rfl⟩
  exact mem_append_left _ (mem_map.2 ⟨_, mem_toList.2 sample_named, rfl⟩)

/-- A cancellation that comes while a call waits for the status of the wrapper. -/
theorem cancelled_tool_starts :
    ¬ ∀ (cfg : Wrapper.Config) (mode : Wrapper.Mode) (disk : String → Option (List ℕ))
      (limits : GateLimits) (s : Bridge), Run.Free (Step cfg) (startup mode disk limits) s →
      OnlyCancelled cfg s fun _ _ => True := by
  intro hclaim
  have hstart : Run.Free (Step Wrapper.sampleConfig)
      (startup .server (fun _ => none) sampleLimits)
      (startup .server (fun _ => none) sampleLimits) := Run.Guarded.refl _
  have harrived := hstart.snoc (Step.arrive (sampleRequest "s" "r")) trivial
  have hcancelled := harrived.snoc
    (Step.cancel (by decide : cancelId (js "s") = true) (by decide : cancelId (js "r") = true))
    trivial
  have hadmitted := hcancelled.snoc
    (Step.status (i := 0) (statusOf "server" "ready") rfl (.inl rfl)) trivial
  have hleased := hadmitted.snoc (Step.acquire (i := 0) rfl rfl) trivial
  have hnamed : (sampleToolRun, 1) ∈
      (namedRun (js "s") (js "r")).toList.map (fun run => (run, 1)) ++ [] :=
    mem_append_left _ (mem_map.2 ⟨_, mem_toList.2 sample_named, rfl⟩)
  exact ((hclaim _ _ _ _ _ hleased).stopped 0 _ sampleToolRun 1 rfl (by decide) hnamed).1 _
    (Step.start (i := 0) rfl rfl (by decide))

end Ds4Studio.Agno
