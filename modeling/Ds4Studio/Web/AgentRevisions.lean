import Ds4Studio.Lib.Run
import Ds4Studio.Web.AgentSession

/-!
One session manager under any interleaving of choices, commits, resets, stops and starts.
A commit does not look at what has happened since its choice: the state, its hashes and
its revision agree as long as no choice is committed that has been overtaken.
-/

namespace Ds4Studio.Web

open Json List Option

/-- A choice that is not committed yet, and what has happened since it was made:
`overtaken` by a reset, a stop or another commit, `restarted` by a start. -/
structure Held (M D : Type) where
  pending : Pending M D
  overtaken : Bool
  restarted : Bool

/-- `counter`: the sessions started so far, by this manager or by others. -/
structure Client (M D : Type) where
  manager : AgentSessionManager M D
  counter : ℕ
  held : List (Held M D)

def Client.init (M D : Type) (counter : ℕ) : Client M D where
  manager := .new
  counter := counter
  held := []

inductive Call (M R : Type) where
  | choosePayload (request : Request M R) (options : ChooseOptions)
  | commit (i : ℕ) (assistant : Option M)
  | reset (reason : String)
  | stop
  | start (now others : ℕ)

def Held.overtake {M D : Type} (held : Held M D) : Held M D :=
  { held with overtaken := true }

def Held.restart {M D : Type} (held : Held M D) : Held M D :=
  { held with restarted := true }

section

variable {M D R : Type} [DecidableEq M] [DecidableEq D] (env : Env M D)

/-- A commit takes its choice out of those that are held. -/
inductive Step : Client M D → Call M R → Client M D → Prop
  | choosePayload (s : Client M D) (request : Request M R) (options : ChooseOptions) :
      Step s (.choosePayload request options)
        { s with
          manager := (env.choosePayload s.manager request options).2
          held := s.held ++
            ((env.choosePayload s.manager request options).1.pending.map fun pending =>
              ⟨pending, false, false⟩).toList }
  | commit (s : Client M D) (i : ℕ) (held : Held M D) (assistant : Option M)
      (hheld : s.held[i]? = some held) :
      Step s (.commit i assistant)
        { s with
          manager := env.commit s.manager (.pending (some held.pending)) assistant
          held :=
            if s.manager.state.isSome ∧ assistant.isSome then
              (s.held.eraseIdx i).map Held.overtake
            else s.held.eraseIdx i }
  | reset (s : Client M D) (reason : String) :
      Step s (.reset reason)
        { s with manager := s.manager.reset reason, held := s.held.map Held.overtake }
  | stop (s : Client M D) :
      Step s .stop { s with manager := s.manager.stop, held := s.held.map Held.overtake }
  | start (s : Client M D) (now others : ℕ) :
      Step s (.start now others)
        { manager := s.manager.start env now (s.counter + others + 1)
          counter := s.counter + others + 1
          held := s.held.map Held.restart }

/-! ### What is promised -/

/-- The same messages, in their stable form. -/
def Env.Same (a b : List M) : Prop :=
  (a.map fun msg => stable (env.value msg)) = b.map fun msg => stable (env.value msg)

/-- The hash of every message stands where the message stands. -/
def Env.Hashed (state : SessionState M D) : Prop :=
  state.messageHashes = state.messages.map fun msg => some (env.hashMessage msg)

/-- A delta goes behind what is stored under its parent revision. -/
def Env.Continues (s : Client M D) (request : Request M R) (payload : Payload M R) : Prop :=
  ∀ stateful, payload.stateful = some stateful → stateful.mode = .delta →
    ∃ state, s.manager.state = some state ∧ stateful.sessionId = state.sessionId ∧
      stateful.parentRevision = state.revision ∧
      env.Same (state.messages ++ payload.messages) request.fullMessages

/-- A commit leaves the state as it is, or raises the revision of the session. -/
def Raises (s t : Client M D) : Prop :=
  t.manager.state = s.manager.state ∨
    ∃ state state', s.manager.state = some state ∧ t.manager.state = some state' ∧
      state'.sessionId = state.sessionId ∧ state.revision < state'.revision

/-- The promise about one call. -/
def Agrees (s t : Client M D) : Call M R → Prop
  | .choosePayload request options =>
      env.Continues s request (env.choosePayload s.manager request options).1.payload
  | .commit i _ => Raises s t ∧
      ∀ held, s.held[i]? = some held → held.overtaken = true → t.manager.state = s.manager.state
  | _ => True

structure Sound (s : Client M D) (call : Call M R) (t : Client M D) : Prop where
  hashed : ∀ state, t.manager.state = some state → env.Hashed state
  agrees : Agrees env s t call

/-- The condition: where there is a session, what is committed has not been overtaken,
and is no delta if a session was started since its choice. -/
def Timely (s : Client M D) : Call M R → Prop
  | .commit i assistant => ∀ held, s.held[i]? = some held → s.manager.state.isSome →
      assistant.isSome → held.overtaken = false ∧
        (held.restarted = true → held.pending.mode = .reset)
  | _ => True

end

section

variable {M D R : Type} (env : Env M D)

/-! ### Hashes -/

def Env.hashes (messages : List M) : List (Option D) :=
  messages.map fun msg => some (env.hashMessage msg)

@[simp] theorem hashes_append (a b : List M) : env.hashes (a ++ b) = env.hashes a ++ env.hashes b :=
  map_append

@[simp] theorem length_hashes (messages : List M) :
    (env.hashes messages).length = messages.length :=
  length_map _

/-- What a choice that is not committed yet says about the session. -/
structure HeldOk (state : Option (SessionState M D)) (held : Held M D) : Prop where
  hashes : held.pending.fullHashes = some (env.hashes held.pending.fullMessages)
  reset : held.pending.mode = .reset → held.pending.requestMessages = held.pending.fullMessages
  delta : held.pending.mode = .delta →
    held.pending.requestMessages.length < held.pending.fullMessages.length
  fresh : held.overtaken = false → ∃ session, state = some session ∧
    if held.restarted then session.messages = []
    else held.pending.mode = .delta → held.pending.parentRevision = session.revision ∧
      env.hashes held.pending.fullMessages =
        env.hashes (session.messages ++ held.pending.requestMessages)

structure Inv (s : Client M D) : Prop where
  hashed : ∀ state, s.manager.state = some state → env.Hashed state
  held : ∀ held ∈ s.held, HeldOk env s.manager.state held

variable {env}

theorem stable_of_hash (hinj : Function.Injective env.digest) {a b : M}
    (h : env.hashMessage a = env.hashMessage b) : stable (env.value a) = stable (env.value b) :=
  stable_of_stableJson (hinj h)

theorem same_of_hashes (hinj : Function.Injective env.digest) {a b : List M}
    (h : env.hashes a = env.hashes b) : env.Same a b := by
  induction a generalizing b with
  | nil =>
    cases b with
    | nil => rfl
    | cons next b => exact absurd h nofun
  | cons msg a ih =>
    cases b with
    | nil => exact absurd h nofun
    | cons next b =>
      obtain ⟨hhead, htail⟩ := cons.inj h
      exact congrArg₂ cons (stable_of_hash hinj (some.inj hhead)) (ih htail)

variable {held : Held M D}

theorem HeldOk.overtake {state state' : Option (SessionState M D)} (h : HeldOk env state held) :
    HeldOk env state' held.overtake where
  hashes := h.hashes
  reset := h.reset
  delta := h.delta
  fresh := nofun

theorem Inv.init (counter : ℕ) : Inv env (Client.init M D counter) where
  hashed := nofun
  held := nofun

variable {s t : Client M D}

/-- Behind a session whose choices are all overtaken no choice counts any more. -/
theorem Inv.overtaken (h : Inv env s)
    (hhashed : ∀ state, t.manager.state = some state → env.Hashed state)
    (hheld : ∀ held ∈ t.held, ∃ old ∈ s.held, held = old.overtake) : Inv env t where
  hashed := hhashed
  held held hmem := by
    obtain ⟨old, hold, rfl⟩ := hheld held hmem
    exact (h.held old hold).overtake

variable {state : SessionState M D}

theorem hashes_of_prefix (h : env.Hashed state) {full : List M}
    (hfront : state.messageHashes <+: env.hashes full) :
    env.hashes full = env.hashes (state.messages ++ full.drop state.messageHashes.length) := by
  have hstored : state.messageHashes = env.hashes state.messages := h
  rw [hstored] at hfront ⊢
  rw [length_hashes]
  obtain ⟨rest, hrest⟩ := hfront
  have hdrop : env.hashes (full.drop state.messages.length) = rest := by
    unfold Env.hashes
    rw [map_drop]
    change (env.hashes full).drop _ = rest
    rw [← hrest, ← length_hashes env state.messages, drop_left]
  rw [hashes_append, hdrop, hrest]

/-! ### Commits -/

variable {pending : Pending M D}

theorem commitState_reset (state : SessionState M D) (assistant : M) (hmode : pending.mode = .reset)
    (hhashes : pending.fullHashes = some (env.hashes pending.fullMessages))
    (hrequest : pending.requestMessages = pending.fullMessages) :
    env.Hashed (env.commitState state pending assistant) ∧
      (env.commitState state pending assistant).revision = state.revision + 1 := by
  unfold Env.Hashed Env.commitState
  simp only [hmode, hhashes, hrequest, length_hashes, if_true]
  simp [Env.hashes]

theorem commitState_delta (state : SessionState M D) (assistant : M) (hmode : pending.mode = .delta)
    (hhashes : pending.fullHashes = some (env.hashes pending.fullMessages)) :
    (env.Hashed (env.commitState state pending assistant) ↔
        env.hashes pending.fullMessages =
          env.hashes (state.messages ++ pending.requestMessages)) ∧
      (env.commitState state pending assistant).revision = pending.parentRevision + 1 := by
  unfold Env.Hashed Env.commitState
  simp only [hmode, hhashes]
  refine ⟨?_, trivial⟩
  change _ = env.hashes (state.messages ++ pending.requestMessages ++ [assistant]) ↔ _
  rw [hashes_append env (state.messages ++ _)]
  exact append_left_inj _

theorem commitState_ne (state : SessionState M D) (pending : Pending M D) (assistant : M) :
    env.commitState state pending assistant ≠ state := by
  intro heq
  cases hmode : pending.mode with
  | reset =>
    have hrevision := congrArg SessionState.revision heq
    unfold Env.commitState at hrevision
    simp [hmode] at hrevision
  | delta =>
    have hlength := congrArg (fun state => state.messages.length) heq
    unfold Env.commitState at hlength
    simp [hmode] at hlength

variable {manager : AgentSessionManager M D}

variable (env) in
theorem commit_idle (pending : Pending M D) {assistant : Option M}
    (h : ¬ (manager.state.isSome ∧ assistant.isSome)) :
    env.commit manager (.pending (some pending)) assistant = manager := by
  unfold Env.commit
  cases hstate : manager.state with
  | none => rfl
  | some state =>
    cases assistant with
    | none => rfl
    | some assistant => exact absurd ⟨by simp [hstate], rfl⟩ h

theorem commit_state {assistant : M} (h : manager.state = some state) :
    (env.commit manager (.pending (some pending)) (some assistant)).state =
      some (env.commitState state pending assistant) := by
  unfold Env.commit
  rw [h]
  rfl

theorem getElem?_overtake {held : List (Held M D)} {other : Held M D}
    (h : other ∈ held.map Held.overtake) : ∃ old ∈ held, other = old.overtake := by
  obtain ⟨old, hold, rfl⟩ := mem_map.mp h
  exact ⟨old, hold, rfl⟩

theorem commitState_ok {assistant : M} (h : HeldOk env (some state) held)
    (hfresh : held.overtaken = false) (hmode : held.restarted = true → held.pending.mode = .reset) :
    env.Hashed (env.commitState state held.pending assistant) ∧
      state.revision < (env.commitState state held.pending assistant).revision := by
  cases hpending : held.pending.mode with
  | reset =>
    obtain ⟨hhashed, hrevision⟩ :=
      commitState_reset state assistant hpending h.hashes (h.reset hpending)
    exact ⟨hhashed, by omega⟩
  | delta =>
    obtain ⟨hhashed, hrevision⟩ := commitState_delta state assistant hpending h.hashes
    obtain ⟨session, hsession, hcontent⟩ := h.fresh hfresh
    obtain rfl := some.inj hsession
    have hrestarted : held.restarted = false := by
      by_contra hrestarted
      rw [hmode (Bool.not_eq_false _ ▸ hrestarted)] at hpending
      exact absurd hpending nofun
    rw [hrestarted] at hcontent
    obtain ⟨hparent, hhashes⟩ := hcontent hpending
    exact ⟨hhashed.mpr hhashes, by omega⟩

/-- A delta chosen before a start does not fit the session that was started. -/
theorem commitState_restarted {assistant : M} (h : HeldOk env (some state) held)
    (hfresh : held.overtaken = false) (hrestarted : held.restarted = true)
    (hhashed : env.Hashed (env.commitState state held.pending assistant)) :
    held.pending.mode = .reset := by
  cases hpending : held.pending.mode with
  | reset => rfl
  | delta =>
    obtain ⟨session, hsession, hcontent⟩ := h.fresh hfresh
    obtain rfl := some.inj hsession
    rw [if_pos hrestarted] at hcontent
    have hhashes := (commitState_delta state assistant hpending h.hashes).1.mp hhashed
    rw [hcontent] at hhashes
    have hlength := congrArg length hhashes
    simp only [length_hashes, nil_append] at hlength
    have hlt := h.delta hpending
    omega

/-! ### Choices -/

theorem hashPrefix_eq [DecidableEq M] (stored full : List M) :
    env.hashPrefix stored (env.hashes stored) full = env.hashes full := by
  induction stored generalizing full with
  | nil => rfl
  | cons msg rest ih =>
    cases full with
    | nil => rfl
    | cons next full =>
      unfold Env.hashPrefix
      split
      · rename_i heq
        subst heq
        exact congrArg (some (env.hashMessage next) :: ·) (ih full)
      · rfl

theorem hashFullMessages_eq [DecidableEq M]
    (h : ∀ state, manager.state = some state → env.Hashed state) (full : List M) :
    env.hashFullMessages manager full = env.hashes full := by
  unfold Env.hashFullMessages
  cases hstate : manager.state with
  | none => rfl
  | some state =>
    have hhashed : state.messageHashes = env.hashes state.messages := h state hstate
    simp only [hhashed]
    exact hashPrefix_eq state.messages full

variable [DecidableEq D]

variable (env) in
/-- A selection is a full replay, or a delta behind the stored messages. -/
theorem select_cases (state : SessionState M D) (full : List M) (fullHashes : List (Option D))
    (toolsHash : D) (options : ChooseOptions) :
    (∃ reason, env.select state full fullHashes toolsHash options = .full full reason) ∨
      ∃ reason, env.select state full fullHashes toolsHash options =
          ⟨.delta, reason, full.drop state.messageHashes.length, state.revision⟩ ∧
        0 < state.messageHashes.length ∧ state.messageHashes <+: fullHashes ∧
        state.messageHashes.length < full.length := by
  unfold Env.select
  dsimp only
  split
  · exact .inl ⟨_, rfl⟩
  split
  swap
  · exact .inl ⟨_, rfl⟩
  rename_i hstored
  split
  · exact .inl ⟨_, rfl⟩
  split
  · exact .inl ⟨_, rfl⟩
  rename_i hfront
  split
  · exact .inl ⟨_, rfl⟩
  split
  · exact .inl ⟨_, rfl⟩
  rename_i hsome
  rw [length_drop] at hsome
  split
  swap
  · exact .inl ⟨_, rfl⟩
  split
  · exact .inr ⟨_, rfl, hstored.2, not_not.mp hfront, by omega⟩
  · exact .inl ⟨_, rfl⟩

theorem choose_ok (h : env.Hashed state) (request : Request M R) (options : ChooseOptions) :
    ∃ pending, (env.choose state (env.hashes request.fullMessages) request options).pending =
        some pending ∧ HeldOk env (some state) ⟨pending, false, false⟩ := by
  refine ⟨_, rfl, ?_⟩
  rcases select_cases env state request.fullMessages (env.hashes request.fullMessages)
    (env.requestToolsHash request) options with ⟨reason, heq⟩ | ⟨reason, heq, hpos, hfront, hlt⟩
  · rw [heq]
    exact ⟨rfl, fun _ => rfl, nofun, fun _ => ⟨state, rfl, nofun⟩⟩
  · rw [heq]
    refine ⟨rfl, nofun, fun _ => ?_, fun _ => ⟨state, rfl, fun _ => ⟨rfl, ?_⟩⟩⟩
    · simp only [length_drop]
      omega
    · exact hashes_of_prefix h hfront

variable [DecidableEq M]

theorem choose_continues (hinj : Function.Injective env.digest) (h : Inv env s)
    (request : Request M R) (options : ChooseOptions) :
    env.Continues s request (env.choosePayload s.manager request options).1.payload := by
  intro stateful hstateful hmode
  unfold Env.choosePayload at hstateful ⊢
  cases hstate : s.manager.state with
  | none =>
    rw [hstate] at hstateful
    exact absurd hstateful nofun
  | some state =>
    rw [hstate] at hstateful
    cases hactive : s.manager.active with
    | false =>
      rw [hactive] at hstateful
      exact absurd hstateful nofun
    | true =>
      rw [hactive, hashFullMessages_eq h.hashed] at hstateful
      obtain rfl := some.inj hstateful
      obtain ⟨pending, hpending, hok⟩ := choose_ok (h.hashed state hstate) request options
      obtain rfl := some.inj hpending
      obtain ⟨state', hstate', hfresh⟩ := hok.fresh rfl
      obtain rfl := some.inj hstate'
      obtain ⟨hparent, hhashes⟩ := hfresh hmode
      refine ⟨state, rfl, rfl, hparent, ?_⟩
      rw [hashFullMessages_eq h.hashed]
      exact same_of_hashes hinj hhashes.symm

theorem Inv.choosePayload (h : Inv env s) (request : Request M R) (options : ChooseOptions) :
    Inv env
      { s with
        manager := (env.choosePayload s.manager request options).2
        held := s.held ++
          ((env.choosePayload s.manager request options).1.pending.map fun pending =>
            ⟨pending, false, false⟩).toList } := by
  refine ⟨h.hashed, fun held hmem => ?_⟩
  rcases mem_append.mp hmem with hold | hnew
  · exact h.held held hold
  obtain ⟨pending, hpending, rfl⟩ := map_eq_some_iff.mp (mem_toList.mp hnew)
  unfold Env.choosePayload at hpending ⊢
  change HeldOk env s.manager.state _
  cases hstate : s.manager.state with
  | none =>
    rw [hstate] at hpending
    exact absurd hpending nofun
  | some state =>
    rw [hstate] at hpending
    cases hactive : s.manager.active with
    | false =>
      rw [hactive] at hpending
      exact absurd hpending nofun
    | true =>
      rw [hactive, hashFullMessages_eq h.hashed] at hpending
      obtain ⟨chosen, hchosen, hok⟩ := choose_ok (h.hashed state hstate) request options
      rw [hchosen] at hpending
      obtain rfl := some.inj hpending
      exact hok

/-! ### Calls -/

variable {call : Call M R}

theorem Inv.step (h : Inv env s) (hstep : Step env s call t) (htimely : Timely s call) :
    Inv env t := by
  cases hstep with
  | choosePayload request options => exact h.choosePayload request options
  | reset reason =>
    refine h.overtaken (fun state hstate => ?_) fun _ => getElem?_overtake
    change (s.manager.reset reason).state = some state at hstate
    unfold AgentSessionManager.reset at hstate
    cases hold : s.manager.state with
    | none =>
      rw [hold] at hstate
      exact h.hashed state hstate
    | some old =>
      rw [hold] at hstate
      obtain rfl := some.inj hstate
      rfl
  | stop => exact h.overtaken nofun fun _ => getElem?_overtake
  | start now others =>
    refine ⟨fun state hstate => ?_, fun held hmem => ?_⟩
    · obtain rfl := some.inj hstate
      rfl
    · obtain ⟨old, hold, rfl⟩ := mem_map.mp hmem
      have hok := h.held old hold
      exact ⟨hok.hashes, hok.reset, hok.delta, fun _ => ⟨_, rfl, rfl⟩⟩
  | commit i held assistant hheld =>
    have hsublist : (s.held.eraseIdx i).Sublist s.held := eraseIdx_sublist s.held i
    by_cases heffect : s.manager.state.isSome ∧ assistant.isSome
    · obtain ⟨state, hstate⟩ := isSome_iff_exists.mp heffect.1
      obtain ⟨assistant, rfl⟩ := isSome_iff_exists.mp heffect.2
      obtain ⟨hfresh, hmode⟩ := htimely held hheld heffect.1 rfl
      have hok := h.held held (mem_of_getElem? hheld)
      rw [hstate] at hok
      rw [if_pos heffect]
      refine h.overtaken (fun state' hstate' => ?_) fun other hother => ?_
      · rw [commit_state hstate] at hstate'
        obtain rfl := some.inj hstate'
        exact (commitState_ok hok hfresh hmode).1
      · obtain ⟨old, hold, rfl⟩ := getElem?_overtake hother
        exact ⟨old, hsublist.mem hold, rfl⟩
    · rw [commit_idle env held.pending heffect, if_neg heffect]
      exact ⟨h.hashed, fun other hother => h.held other (hsublist.mem hother)⟩

theorem Inv.run {counter : ℕ}
    (hrun : Run.Guarded (Step (R := R) env) Timely (Client.init M D counter) s) : Inv env s := by
  have hinv : ∀ s call t, Inv env s → Step (R := R) env s call t → Timely s call → Inv env t :=
    fun _ _ _ hs hstep htimely => hs.step hstep htimely
  exact hrun.invariant hinv (Inv.init counter)

theorem timely_of_sound (h : Inv env s) (hstep : Step env s call t) (hsound : Sound env s call t) :
    Timely s call := by
  cases hstep with
  | commit i held assistant hheld =>
    intro other hother hstate hassistant
    obtain rfl := some.inj (hheld.symm.trans hother)
    obtain ⟨state, hstate⟩ := isSome_iff_exists.mp hstate
    obtain ⟨assistant, rfl⟩ := isSome_iff_exists.mp hassistant
    have hok := h.held held (mem_of_getElem? hheld)
    rw [hstate] at hok
    have hfresh : held.overtaken = false := by
      by_contra hovertaken
      have hsame := hsound.agrees.2 held hheld (Bool.not_eq_false _ ▸ hovertaken)
      rw [commit_state hstate, hstate] at hsame
      exact commitState_ne _ _ _ (some.inj hsame)
    refine ⟨hfresh, fun hrestarted => ?_⟩
    exact commitState_restarted hok hfresh hrestarted (hsound.hashed _ (commit_state hstate))
  | choosePayload => trivial
  | reset => trivial
  | stop => trivial
  | start => trivial

theorem sound_of_timely (hinj : Function.Injective env.digest) (h : Inv env s)
    (hstep : Step env s call t) (htimely : Timely s call) : Sound env s call t := by
  refine ⟨(h.step hstep htimely).hashed, ?_⟩
  cases hstep with
  | choosePayload request options => exact choose_continues hinj h request options
  | commit i held assistant hheld =>
    by_cases heffect : s.manager.state.isSome ∧ assistant.isSome
    · obtain ⟨state, hstate⟩ := isSome_iff_exists.mp heffect.1
      obtain ⟨assistant, rfl⟩ := isSome_iff_exists.mp heffect.2
      obtain ⟨hfresh, hmode⟩ := htimely held hheld heffect.1 rfl
      have hok := h.held held (mem_of_getElem? hheld)
      rw [hstate] at hok
      refine ⟨.inr ⟨state, _, hstate, commit_state hstate, rfl, ?_⟩, fun other hother hlate => ?_⟩
      · exact (commitState_ok hok hfresh hmode).2
      · obtain rfl := some.inj (hheld.symm.trans hother)
        rw [hfresh] at hlate
        exact absurd hlate nofun
    · have hsame := commit_idle env held.pending heffect
      exact ⟨.inl (congrArg _ hsame), fun _ _ _ => congrArg _ hsame⟩
  | reset => trivial
  | stop => trivial
  | start => trivial

/-- As long as nothing overtaken is committed all promises are kept, and they are broken
by the first commit of something overtaken. -/
theorem revisions_agree (hinj : Function.Injective env.digest) (counter : ℕ) {s t : Client M D}
    {call : Call M R} (hrun : Run.Guarded (Step (R := R) env) Timely (Client.init M D counter) s)
    (hstep : Step env s call t) :
    Sound env s call t ↔ Timely s call :=
  ⟨timely_of_sound (Inv.run hrun) hstep, sound_of_timely hinj (Inv.run hrun) hstep⟩

end

/-! ### Two deltas of one revision -/

/-- Messages of the user, and a response. -/
def userTurns : Env ℕ Bytes where
  value n := .obj [(js "role", .str (js (if n = 1 then "assistant" else "user")))]
  digest := id
  agentTools := .arr []

def turn (messages : List ℕ) : Request ℕ Unit := ⟨(), some messages, .undefined⟩

def deltas : ChooseOptions := ⟨true, .delta, false⟩

/-- A first turn, and the commit of a delta behind it. -/
theorem revisions_agree_second_turn :
    ∃ s t : Client ℕ Bytes, Step userTurns s (.commit 0 (some 1) : Call ℕ Unit) t ∧
      Sound userTurns s (.commit 0 (some 1) : Call ℕ Unit) t ∧
      t.manager.messages = [0, 1, 2, 1] := by
  have hinit : Run.Guarded (Step (R := Unit) userTurns) Timely (Client.init ℕ Bytes 0) _ := .refl _
  have hfirst := (hinit.snoc (.start _ 0 0) trivial).snoc
    (.choosePayload _ (turn [0]) deltas) trivial
  have hanswer := hfirst.snoc (.commit _ 0 _ (some 1) rfl) fun held hheld _ _ => by
    obtain rfl := some.inj hheld
    exact ⟨rfl, nofun⟩
  have hdelta := hanswer.snoc (.choosePayload _ (turn [0, 1, 2]) deltas) trivial
  refine ⟨_, _, .commit _ 0 _ (some 1) rfl, (revisions_agree Function.injective_id 0 hdelta
    (.commit _ 0 _ (some 1) rfl)).mpr ?_, rfl⟩
  intro held hheld _ _
  obtain rfl := some.inj hheld
  exact ⟨rfl, nofun⟩

/-- Both deltas behind one revision are committed: the second appends to the messages of
the first, but puts its hashes in place of the first's, and the revision stays. -/
theorem second_delta_commits :
    Function.Injective userTurns.digest ∧ ∃ s t : Client ℕ Bytes,
      Run.Free (Step (R := Unit) userTurns) (Client.init ℕ Bytes 0) s ∧
      Step userTurns s (.commit 0 (some 1) : Call ℕ Unit) t ∧
      (∃ a b, s.manager.state = some a ∧ t.manager.state = some b ∧ a.revision = 2 ∧
        b.revision = 2 ∧ b.messages = [0, 1, 2, 1, 2, 1] ∧ b.messageHashes.length = 4) ∧
      ¬ Sound userTurns s (.commit 0 (some 1) : Call ℕ Unit) t := by
  have hinit : Run.Free (Step (R := Unit) userTurns) (Client.init ℕ Bytes 0) _ := .refl _
  have hfirst := (hinit.snoc (.start _ 0 0) trivial).snoc
    (.choosePayload _ (turn [0]) deltas) trivial
  have hanswer := hfirst.snoc (.commit _ 0 _ (some 1) rfl) trivial
  have hdelta := hanswer.snoc (.choosePayload _ (turn [0, 1, 2]) deltas) trivial
  have hagain := hdelta.snoc (.choosePayload _ (turn [0, 1, 2]) deltas) trivial
  have hcommit := hagain.snoc (.commit _ 0 _ (some 1) rfl) trivial
  refine ⟨Function.injective_id, _, _, hcommit, .commit _ 0 _ (some 1) rfl, ?_, ?_⟩
  · exact ⟨_, _, rfl, rfl, rfl, rfl, rfl, rfl⟩
  · intro hsound
    have hlength := congrArg length (hsound.hashed _ rfl)
    exact absurd hlength (by decide)

end Ds4Studio.Web
