import Ds4Studio.Web.AgentChat

/-!
Tool calls and their results in the transcript of the agent chat. At the end of a turn
they are paired, unless the turn ends between a commit of calls and the commit of their
results.
-/

namespace Ds4Studio.Web

open Json List Option

/-! ### What is promised -/

def Message.isTool : Message → Bool
  | .tool _ _ _ => true
  | _ => false

/-- A message that neither calls a tool nor answers a call. -/
def Message.isPlain : Message → Bool
  | .assistant _ _ toolCalls => toolCalls.isEmpty
  | .tool _ _ _ => false
  | _ => true

/-- The message answers the call. -/
def Answers (call : ToolCall) (msg : Message) : Prop :=
  ∃ content name, msg = .tool content (some call.id) name

/-- Directly behind a message with calls stands one tool message for each of their ids, in
the order of the calls, and no tool message stands anywhere else. -/
inductive Paired : List Message → Prop
  | nil : Paired []
  | plain {msg : Message} {rest : List Message} : msg.isPlain = true → Paired rest →
      Paired (msg :: rest)
  | round {content reasoning : Option JsString} {calls : List ToolCall}
      {results rest : List Message} : (calls.map ToolCall.id).Nodup →
      List.Forall₂ Answers calls results → Paired rest →
      Paired (.assistant content reasoning calls :: (results ++ rest))

/-! ### The condition -/

section

variable {D : Type} [DecidableEq D]

/-- The condition on a step:

* the transcript that is committed begins with client messages that are paired, and the
  calls of a response that is committed have different ids and the finish reason of calls,
* no turn is left while results wait for their commit, or with the work of a tool. -/
def Orderly (env : ChatEnv D) (s : Chat D) : ChatAction → Prop
  | .respond response finalization intentBlocked =>
      match env.disposition response finalization intentBlocked with
      | .retried _ => True
      | .ended => s.owed = false
      | .committed => Paired s.clientMessages ∧
          ((response.toolCalls env.json).map ToolCall.id).Nodup ∧
          (response.toolCalls env.json = [] ∨ response.finishReason = some (js "tool_calls"))
  | .leave lost => s.owed = false ∧ lost = []
  | _ => True

end

/-! ### Paired transcripts -/

variable {a : List Message}

theorem Paired.append {b : List Message} (ha : Paired a) (hb : Paired b) : Paired (a ++ b) := by
  induction ha with
  | nil => exact hb
  | plain hmsg _ ih => exact .plain hmsg ih
  | round hids hresults _ ih =>
    rw [cons_append, append_assoc]
    exact .round hids hresults ih

variable {msg : Message}

theorem Paired.snoc (ha : Paired a) (hmsg : msg.isPlain = true) : Paired (a ++ [msg]) :=
  ha.append (.plain hmsg .nil)

variable {calls : List ToolCall}

/-- A round behind a paired transcript is complete with its last result. -/
theorem Paired.snoc_round {results : List Message} {content reasoning : Option JsString}
    (ha : Paired a) (hids : (calls.map ToolCall.id).Nodup)
    (hresults : List.Forall₂ Answers calls results) :
    Paired (a ++ .assistant content reasoning calls :: results) := by
  have hround : Paired (.assistant content reasoning calls :: (results ++ [])) :=
    .round hids hresults .nil
  rw [append_nil] at hround
  exact ha.append hround

theorem Answers.isTool {call : ToolCall} (h : Answers call msg) : msg.isTool = true := by
  obtain ⟨content, name, rfl⟩ := h
  rfl

theorem isTool_of_answers {results : List Message} (h : List.Forall₂ Answers calls results) :
    ∀ msg ∈ results, msg.isTool = true := by
  induction h with
  | nil => simp
  | cons hanswer _ ih =>
    intro msg hmsg
    rcases mem_cons.mp hmsg with rfl | hmsg
    · exact hanswer.isTool
    · exact ih msg hmsg

theorem isSystem_of_isTool (h : msg.isTool = true) : msg.isSystem = false := by
  cases msg with
  | tool => rfl
  | _ => exact absurd h (by simp [Message.isTool])

theorem isSagePolicy_of_not_system (h : msg.isSystem = false) : msg.isSagePolicy = false := by
  cases msg with
  | system => exact absurd h (by simp [Message.isSystem])
  | _ => rfl

theorem Paired.filter (ha : Paired a) {p : Message → Bool}
    (hp : ∀ msg, msg.isSystem = false → p msg = true) : Paired (a.filter p) := by
  induction ha with
  | nil => exact .nil
  | @plain msg rest hmsg _ ih =>
    rw [filter_cons]
    split
    · exact .plain hmsg ih
    · exact ih
  | @round content reasoning calls results rest hids hresults _ ih =>
    rw [filter_cons_of_pos (hp _ rfl), filter_append]
    have hkeep : results.filter p = results :=
      filter_eq_self.mpr fun msg hmsg =>
        hp msg (isSystem_of_isTool (isTool_of_answers hresults msg hmsg))
    rw [hkeep]
    exact .round hids hresults ih

theorem Paired.cut (ha : Paired a) {n : ℕ}
    (hn : ∀ i, n = i + 1 → ∃ msg, a[i]? = some msg ∧ msg.isSystem = true) :
    Paired (a.take n) ∧ Paired (a.drop n) := by
  induction ha generalizing n with
  | nil => simp [Paired.nil]
  | @plain msg rest hmsg hrest ih =>
    cases n with
    | zero => exact ⟨.nil, .plain hmsg hrest⟩
    | succ n =>
      have hcut : Paired (rest.take n) ∧ Paired (rest.drop n) := by
        apply ih
        rintro i rfl
        exact hn (i + 1) rfl
      exact ⟨.plain hmsg hcut.1, hcut.2⟩
  | @round content reasoning calls results rest hids hresults hrest ih =>
    cases n with
    | zero => exact ⟨.nil, .round hids hresults hrest⟩
    | succ n =>
      obtain ⟨msg, hmsg, hsystem⟩ := hn n rfl
      have hlen : results.length < n := by
        by_contra hle
        rcases Nat.eq_zero_or_pos n with rfl | hpos
        · obtain rfl := some.inj hmsg
          exact absurd hsystem (by simp [Message.isSystem])
        · obtain ⟨m, rfl⟩ := Nat.exists_eq_succ_of_ne_zero (Nat.ne_of_gt hpos)
          rw [getElem?_cons_succ, getElem?_append_left (by omega)] at hmsg
          have htool := isTool_of_answers hresults msg (mem_of_getElem? hmsg)
          rw [isSystem_of_isTool htool] at hsystem
          exact absurd hsystem nofun
      have hcut : Paired (rest.take (n - results.length)) ∧
          Paired (rest.drop (n - results.length)) := by
        apply ih
        intro i hi
        refine ⟨msg, ?_, hsystem⟩
        obtain ⟨m, rfl⟩ : ∃ m, n = m + 1 := ⟨n - 1, by omega⟩
        rw [getElem?_cons_succ, getElem?_append_right (by omega)] at hmsg
        rw [← hmsg]
        congr 1
        omega
      rw [take_succ_cons, drop_succ_cons, take_append, drop_append,
        take_of_length_le (by omega), drop_eq_nil_of_le (by omega)]
      exact ⟨.round hids hresults hcut.1, hcut.2⟩

theorem paired_applySagePolicy (ha : Paired a) (prompt : Option JsString) :
    Paired (applySagePolicyToMessages prompt a) := by
  have hclean : Paired (a.filter fun msg => !msg.isSagePolicy) :=
    ha.filter fun msg hmsg => by simp [isSagePolicy_of_not_system hmsg]
  cases prompt with
  | none => exact hclean
  | some prompt =>
    unfold applySagePolicyToMessages
    refine (hclean.cut fun i hi => ?_).1.append (.plain rfl (hclean.cut fun i hi => ?_).2)
    all_goals
      cases hfind : (a.filter fun msg => !msg.isSagePolicy).findIdx? Message.isSystem with
      | none =>
        rw [hfind] at hi
        exact absurd hi (by simp)
      | some firstSystem =>
        rw [hfind] at hi
        obtain rfl : firstSystem = i := Nat.succ.inj hi
        obtain ⟨hlt, hsystem, -⟩ := findIdx?_eq_some_iff_getElem.mp hfind
        exact ⟨_, getElem?_eq_getElem hlt, hsystem⟩

theorem sublist_applySagePolicy {x : List Message} (h : x.Sublist a)
    (hx : ∀ msg ∈ x, msg.isTool = true) (prompt : Option JsString) :
    x.Sublist (applySagePolicyToMessages prompt a) := by
  have hclean : x.Sublist (a.filter fun msg => !msg.isSagePolicy) := by
    have hkeep : x.filter (fun msg => !msg.isSagePolicy) = x :=
      filter_eq_self.mpr fun msg hmsg => by
        simp [isSagePolicy_of_not_system (isSystem_of_isTool (hx msg hmsg))]
    rw [← hkeep]
    exact h.filter _
  cases prompt with
  | none => exact hclean
  | some prompt =>
    have hinsert : ∀ n, (a.filter fun msg => !msg.isSagePolicy).Sublist
        ((a.filter fun msg => !msg.isSagePolicy).take n ++
          .system (sagePolicyBegin ++ js "\n" ++ prompt ++ js "\n" ++ sagePolicyEnd) ::
          (a.filter fun msg => !msg.isSagePolicy).drop n) := by
      intro n
      have hcons := (List.Sublist.refl
        ((a.filter fun msg => !msg.isSagePolicy).take n)).append
        (sublist_cons_self
          (Message.system (sagePolicyBegin ++ js "\n" ++ prompt ++ js "\n" ++ sagePolicyEnd))
          ((a.filter fun msg => !msg.isSagePolicy).drop n))
      rwa [take_append_drop] at hcons
    exact hclean.trans (hinsert _)

/-! ### Ids of planned crawls -/

theorem decimal_injective : Function.Injective decimal := by
  intro m n h
  have hrepr := congrArg String.toList (js_injective h)
  have hvalue := congrArg (fun digits => Nat.ofDigitChars 10 digits 0) hrepr
  simpa [Nat.ofDigitChars_toDigits (by decide : 1 < 10) (by decide : 10 ≤ 10)] using hvalue

theorem underscore_not_mem_decimal (n : ℕ) : (0x5f : Fin 0x110000) ∉ decimal n := by
  intro hmem
  unfold decimal js at hmem
  rw [Nat.toList_repr] at hmem
  obtain ⟨c, hc, hcode⟩ := mem_map.mp hmem
  have hval : c.toNat = 0x5f := congrArg Fin.val hcode
  have hchar : c = Char.ofNat 0x5f := Char.toNat_inj.mp hval
  subst hchar
  exact Nat.underscore_not_in_toDigits hc

theorem behind_last {u : Fin 0x110000} {a a' b b' : JsString} (hb : u ∉ b) (hb' : u ∉ b')
    (h : a ++ u :: b = a' ++ u :: b') : b = b' := by
  have hread : ∀ {a b : JsString}, u ∉ b →
      ((a ++ u :: b).reverse.takeWhile fun c => c != u) = b.reverse := by
    intro a b hb
    rw [reverse_append, reverse_cons, append_assoc, takeWhile_append_of_pos]
    · simp
    · intro c hc
      simp only [bne_iff_ne, ne_eq]
      rintro rfl
      exact hb (mem_reverse.mp hc)
  have hrev : b.reverse = b'.reverse := by rw [← hread hb, h, hread hb']
  exact reverse_injective hrev

theorem planId_injective {now now' round round' i j : ℕ}
    (h : planId now round i = planId now' round' j) : i = j := by
  unfold planId at h
  rw [append_assoc _ (js "_"), append_assoc _ (js "_")] at h
  exact decimal_injective
    (behind_last (underscore_not_mem_decimal i) (underscore_not_mem_decimal j) h)

section

variable {D : Type} {env : ChatEnv D}

theorem plannedCalls_ids (urls : List JsString) (now : ℕ → ℕ) (round : ℕ) :
    ((env.plannedCalls urls now round).map ToolCall.id).Nodup := by
  have hids : (env.plannedCalls urls now round).map ToolCall.id =
      (urls.zipIdx.map Prod.snd).map fun i => planId (now i) round i := by
    unfold ChatEnv.plannedCalls
    rw [List.map_map, List.map_map]
    rfl
  rw [hids, zipIdx_map_snd]
  exact List.Nodup.map (fun i j h => planId_injective h) nodup_range'

theorem plannedCalls_ne_nil {urls : List JsString} (h : urls ≠ []) (now : ℕ → ℕ) (round : ℕ) :
    env.plannedCalls urls now round ≠ [] := by
  unfold ChatEnv.plannedCalls
  simpa using h

/-! ### Groups -/

theorem flatten_groupCalls (batch calls : List ToolCall) :
    (groupCalls batch calls).flatten = batch ++ calls := by
  induction calls generalizing batch with
  | nil =>
    unfold groupCalls
    split
    · simp_all
    · simp
  | cons call rest ih =>
    unfold groupCalls
    split
    · rw [ih, append_assoc]
      rfl
    · rw [flatten_append, flatten_cons, ih]
      split
      · simp_all
      · simp

theorem answers_groupResults {group : List ToolCall} {outcomes : List Outcome}
    (h : outcomes.length = group.length) :
    List.Forall₂ Answers group (groupResults group outcomes) := by
  induction group generalizing outcomes with
  | nil => exact .nil
  | cons call group ih =>
    cases outcomes with
    | nil => exact absurd h (by simp)
    | cons outcome outcomes =>
      exact .cons ⟨_, _, rfl⟩ (ih (Nat.succ.inj h))

theorem executedResults_sublist (group : List ToolCall) (outcomes : List Outcome) :
    (executedResults group outcomes).Sublist (groupResults group outcomes) := by
  unfold executedResults groupResults
  rw [← map_uncurry_zip_eq_zipWith]
  exact filter_sublist.map _

/-! ### Commits -/

theorem hashMessage_injective (hinj : Function.Injective env.digest) :
    Function.Injective env.session.hashMessage := fun _ _ h =>
  Message.stable_injective (stable_of_hash hinj h)

variable (env) in
/-- A session that runs, with the hashes of what it has committed. -/
def SessionOk (manager : AgentSessionManager Message D) : Prop :=
  manager.active = true ∧ ∃ state, manager.state = some state ∧ env.session.Hashed state

variable (env) in
/-- What is pending goes behind the transcript it was chosen for. -/
structure AttemptOk (manager : AgentSessionManager Message D) (attempt : Attempt D)
    (messages : List Message) (pending : Pending Message D) : Prop where
  request : attempt.request.fullMessages = messages
  chosen : attempt.choice.pending = some pending
  messages : pending.fullMessages = messages
  held : HeldOk env.session manager.state ⟨pending, false, false⟩

variable {manager : AgentSessionManager Message D}

theorem messages_eq {state : SessionState Message D} (h : manager.state = some state) :
    manager.messages = state.messages := by
  unfold AgentSessionManager.messages
  rw [h]

theorem commit_spec (hinj : Function.Injective env.digest) (hok : SessionOk env manager)
    {pending : Pending Message D}
    (hheld : HeldOk env.session manager.state ⟨pending, false, false⟩) (msg : Message) :
    SessionOk env (env.session.commit manager (.pending (some pending)) (some msg)) ∧
      (env.session.commit manager (.pending (some pending)) (some msg)).messages =
        pending.fullMessages ++ [msg] := by
  obtain ⟨hactive, state, hstate, -⟩ := hok
  have hcommit : (env.session.commit manager (.pending (some pending)) (some msg)).state =
      some (env.session.commitState state pending msg) := commit_state hstate
  have hactive' :
      (env.session.commit manager (.pending (some pending)) (some msg)).active = true := by
    unfold Env.commit
    rw [hstate]
    exact hactive
  rw [hstate] at hheld
  refine ⟨⟨hactive', _, hcommit, (commitState_ok hheld rfl nofun).1⟩, ?_⟩
  rw [messages_eq hcommit]
  unfold Env.commitState
  cases hmode : pending.mode with
  | reset => rw [hheld.reset hmode]; rfl
  | delta =>
    obtain ⟨state', hstate', hfresh⟩ := hheld.fresh rfl
    obtain rfl := some.inj hstate'
    have hhash : Function.Injective fun msg => some (env.session.hashMessage msg) :=
      (some_injective _).comp (hashMessage_injective hinj)
    exact congrArg (· ++ [msg]) (map_injective_iff.mpr hhash (hfresh hmode).2).symm

theorem canonical_commit_spec (hok : SessionOk env manager) (pending : Pending Message D)
    (msg : Message) :
    SessionOk env
        (env.session.commit manager (.pending (some (canonicalSageCommitPending pending)))
          (some msg)) ∧
      (env.session.commit manager (.pending (some (canonicalSageCommitPending pending)))
          (some msg)).messages = pending.fullMessages ++ [msg] := by
  obtain ⟨hactive, state, hstate, -⟩ := hok
  unfold Env.commit
  rw [hstate]
  exact ⟨⟨hactive, _, rfl, rfl⟩, rfl⟩

/-! ### The invariant -/

/-- The round under way: `message` made the calls behind `before` and is committed, those
that are `done` have their results in the working copy. -/
structure Round (s : Chat D) (attempt : Attempt D) (rest : List ToolCall) (before : List Message)
    (message : Message) (calls done : List ToolCall) (results : List Message) : Prop where
  response : ∃ content reasoning, message = .assistant content reasoning calls
  copy : s.fullMessages = before ++ message :: results
  committed : s.manager.messages = before ++ [message]
  parts : calls = done ++ rest
  ids : (calls.map ToolCall.id).Nodup
  answered : List.Forall₂ Answers done results
  paired : Paired before
  pending : ∃ pending, attempt.choice.pending = some pending ∧ pending.fullMessages = before
  allowed : sageToolBlockAllowed calls = true
  executed : done = [] → s.executed.Sublist before

variable (env) in
/-- What holds where a turn waits, if the client messages are paired. -/
def PhaseOk (s : Chat D) : Prop :=
  match s.phase with
  | .idle => s.owed = false
  | .planning _ | .looping _ =>
      s.aborted = false → Paired s.clientMessages → Paired s.fullMessages
  | .crawling _ rest => rest ≠ [] ∧ ∃ before calls done results,
      s.fullMessages = before ++ .assistant none none calls :: results ∧ calls = done ++ rest ∧
        (calls.map ToolCall.id).Nodup ∧ List.Forall₂ Answers done results ∧
        (s.aborted = false → Paired s.clientMessages → Paired before)
  | .requesting _ attempt => (Paired s.clientMessages → Paired s.fullMessages) ∧
      ∃ pending, AttemptOk env s.manager attempt s.fullMessages pending
  | .running _ attempt groups => s.owed = true ∧ ∃ before message calls done results,
      Round s attempt groups.flatten before message calls done results

variable (env) in
structure ChatInv (s : Chat D) : Prop where
  session : SessionOk env s.manager
  tools : ∀ msg ∈ s.executed, msg.isTool = true
  settled : s.owed = false → Paired s.manager.messages ∧
    s.executed.Sublist s.manager.messages
  copied : s.phase ≠ .idle → s.executed.Sublist s.fullMessages
  phase : PhaseOk env s

theorem ChatInv.start (now counter : ℕ) : ChatInv env (env.start now counter) where
  session := ⟨rfl, _, rfl, rfl⟩
  tools := nofun
  settled := fun _ => ⟨.nil, .slnil⟩
  copied := fun h => absurd rfl h
  phase := show _ = false from rfl

variable {s : Chat D}

section

variable (h : ChatInv env s)

include h

theorem ChatInv.waits {p : Phase D} (hphase : s.phase = p) : PhaseOk env { s with phase := p } := by
  subst hphase
  exact h.phase

theorem opening_ok (hphase : s.phase = .idle) (input : TurnInput) :
    (Paired (if s.manager.messages = [] then input.clientMessages else []) →
        Paired (s.opening input)) ∧
      s.executed.Sublist (s.opening input) := by
  have howed : s.owed = false := by exact h.waits hphase
  obtain ⟨hpaired, hexecuted⟩ := h.settled howed
  have hplain : ∀ text : Option JsString, Paired (text.map Message.user).toList := by
    intro text
    cases text with
    | none => exact .nil
    | some text => exact .plain rfl .nil
  constructor
  · intro hclient
    refine (paired_applySagePolicy (Paired.append ?_ (hplain _)) _).append (hplain _)
    split
    · rename_i hempty
      rw [if_pos hempty] at hclient
      exact .plain rfl hclient
    · exact hpaired
  · refine (sublist_applySagePolicy ?_ h.tools _).trans (sublist_append_left _ _)
    refine List.Sublist.trans ?_ (sublist_append_left _ _)
    split
    · rename_i hempty
      rw [hempty, sublist_nil] at hexecuted
      rw [hexecuted]
      exact nil_sublist _
    · exact hexecuted

theorem ChatInv.begin (hphase : s.phase = .idle) (input : TurnInput)
    (manager : AgentSessionManager Message D) (hmanager : manager.state = s.manager.state)
    (hactive : manager.active = s.manager.active) :
    ChatInv env
      { s with
        manager := manager
        fullMessages := s.opening input
        aborted := false
        forceReset := false
        phase := if input.overBudget then .idle else .planning 0
        clientMessages := if s.manager.messages = [] then input.clientMessages else []
        owed := false } := by
  have howed : s.owed = false := by exact h.waits hphase
  have hmessages : manager.messages = s.manager.messages := by
    unfold AgentSessionManager.messages
    rw [hmanager]
  obtain ⟨hopening, hexecuted⟩ := opening_ok h hphase input
  refine ⟨?_, h.tools, fun _ => ?_, fun _ => hexecuted, ?_⟩
  · unfold SessionOk
    rw [hmanager, hactive]
    exact h.session
  · dsimp only
    rw [hmessages]
    exact h.settled howed
  · unfold PhaseOk
    cases input.overBudget with
    | true => rfl
    | false => exact fun _ => hopening

/-! ### Planned crawls -/

theorem ChatInv.plan {round : ℕ} {urls : List JsString} (hphase : s.phase = .planning round)
    (hurls : urls ≠ []) (now : ℕ → ℕ) :
    ChatInv env
      { s with
        fullMessages := s.fullMessages ++
          [.assistant none none (env.plannedCalls urls now (round + 1))]
        phase := .crawling (round + 1) (env.plannedCalls urls now (round + 1)) } := by
  have hpaired := h.waits hphase
  have hcopied := h.copied (by rw [hphase]; exact nofun)
  refine ⟨h.session, h.tools, h.settled, fun _ => hcopied.trans (sublist_append_left _ _), ?_⟩
  exact ⟨plannedCalls_ne_nil hurls now _, s.fullMessages, _, [], [], rfl, rfl,
    plannedCalls_ids urls now _, .nil, hpaired⟩

end

variable {call : ToolCall}

theorem ChatInv.crawl (h : ChatInv env s) {round : ℕ} {rest : List ToolCall}
    (hphase : s.phase = .crawling round (call :: rest)) (content : JsString) :
    ChatInv env
      { s with
        fullMessages := s.fullMessages ++ [call.result content]
        executed := s.executed ++ [call.result content]
        owed := true
        phase := if rest = [] then .planning round else .crawling round rest } := by
  have hround := h.waits hphase
  obtain ⟨-, before, calls, done, results, hcopy, hcalls, hids, hresults, hbefore⟩ := hround
  have hcopied := h.copied (by rw [hphase]; exact nofun)
  have hanswer : Answers call (call.result content) := ⟨content, none, rfl⟩
  have hanswered : List.Forall₂ Answers (done ++ [call]) (results ++ [call.result content]) :=
    rel_append hresults (.cons hanswer .nil)
  refine ⟨h.session, ?_, nofun, fun _ => hcopied.append (List.Sublist.refl _), ?_⟩
  · intro msg hmsg
    rcases mem_append.mp hmsg with hmsg | hmsg
    · exact h.tools msg hmsg
    · obtain rfl := mem_singleton.mp hmsg
      rfl
  · unfold PhaseOk
    by_cases hrest : rest = []
    · rw [if_pos hrest]
      intro haborted hclient
      rw [hcopy, append_assoc]
      subst hrest
      rw [← hcalls] at hanswered
      exact (hbefore haborted hclient).snoc_round hids hanswered
    · rw [if_neg hrest]
      refine ⟨hrest, before, calls, done ++ [call], results ++ [call.result content], ?_, ?_,
        hids, hanswered, hbefore⟩
      · rw [hcopy, append_assoc]
        rfl
      · rw [hcalls, append_assoc]
        rfl

/-! ### Responses -/

variable {attempt : Attempt D} {iteration : ℕ}

theorem ChatInv.commit (hinj : Function.Injective env.digest) (h : ChatInv env s)
    (hphase : s.phase = .requesting iteration attempt) (msg : Message) :
    SessionOk env (env.commit s attempt.choice.pending msg).manager ∧
      (env.commit s attempt.choice.pending msg).manager.messages = s.fullMessages ++ [msg] ∧
      (env.commit s attempt.choice.pending msg).fullMessages = s.fullMessages ++ [msg] := by
  have hattempt := h.waits hphase
  obtain ⟨-, pending, hok⟩ := hattempt
  rw [hok.chosen, ← hok.messages]
  obtain ⟨hsession, hmessages⟩ := commit_spec hinj h.session hok.held msg
  exact ⟨hsession, hmessages, hmessages⟩

/-- A response whose commit meets the condition is final if and only if it has no calls. -/
theorem isFinal_iff {response : Response}
    (h : response.toolCalls env.json = [] ∨ response.finishReason = some (js "tool_calls")) :
    response.isFinal env.json = true ↔ response.toolCalls env.json = [] := by
  unfold Response.isFinal
  rcases h with h | h
  · simp [h]
  · simp [h]

theorem ChatInv.respond_committed (hinj : Function.Injective env.digest) (h : ChatInv env s)
    (hphase : s.phase = .requesting iteration attempt) {response : Response}
    (hclient : Paired s.clientMessages)
    (hids : ((response.toolCalls env.json).map ToolCall.id).Nodup)
    (hfinish : response.toolCalls env.json = [] ∨
      response.finishReason = some (js "tool_calls")) :
    ChatInv env (env.respond s iteration attempt response .committed) := by
  have hattempt := h.waits hphase
  obtain ⟨hpaired, pending, hok⟩ := hattempt
  have hpaired := hpaired hclient
  have hcopied := h.copied (by rw [hphase]; exact nofun)
  obtain ⟨hsession, hcommitted, hcopy⟩ := h.commit hinj hphase (response.message env.json)
  have hcopied' : s.executed.Sublist (s.fullMessages ++ [response.message env.json]) :=
    hcopied.trans (sublist_append_left _ _)
  unfold ChatEnv.respond ChatEnv.behindCommit
  by_cases hfinal : response.isFinal env.json = true
  · rw [if_pos hfinal]
    have hcalls := (isFinal_iff hfinish).mp hfinal
    have hplain : (response.message env.json).isPlain = true := by
      unfold Response.message
      rw [hcalls]
      rfl
    refine ⟨hsession, h.tools, fun _ => ?_, fun hidle => absurd rfl hidle, ?_⟩
    · dsimp only
      rw [hcommitted]
      exact ⟨hpaired.snoc hplain, hcopied'⟩
    · unfold PhaseOk
      simp [hcalls]
  rw [if_neg hfinal]
  by_cases hallowed : sageToolBlockAllowed (response.toolCalls env.json) = true
  · rw [if_pos hallowed]
    refine ⟨hsession, h.tools, nofun, fun _ => ?_, rfl, s.fullMessages,
      response.message env.json, response.toolCalls env.json, [], [], ?_⟩
    · dsimp only
      rw [hcopy]
      exact hcopied'
    · refine ⟨⟨_, _, rfl⟩, hcopy, hcommitted, ?_, hids, .nil, hpaired,
        ⟨pending, hok.chosen, hok.messages⟩, hallowed, fun _ => hcopied⟩
      rw [flatten_groupCalls]
      rfl
  · rw [if_neg hallowed]
    have hresults : List.Forall₂ Answers (response.toolCalls env.json)
        ((response.toolCalls env.json).map fun call =>
          call.result sageMixedToolBlockForbidden) := by
      rw [forall₂_map_right_iff, forall₂_same]
      exact fun call _ => ⟨_, none, rfl⟩
    refine ⟨hsession, h.tools, nofun, fun _ => ?_, ?_⟩
    · dsimp only
      rw [hcopy]
      exact hcopied'.trans (sublist_append_left _ _)
    · unfold PhaseOk
      intro _ _
      rw [hcopy, append_assoc]
      exact hpaired.snoc_round hids hresults

/-! ### Tool calls -/

variable {groups : List (List ToolCall)}

theorem ChatInv.run (h : ChatInv env s) {group : List ToolCall} {outcomes : List Outcome}
    (hphase : s.phase = .running iteration attempt (group :: groups))
    (houtcomes : outcomes.length = group.length) :
    ChatInv env
      { s with
        fullMessages := s.fullMessages ++ groupResults group outcomes
        executed := s.executed ++ executedResults group outcomes
        phase := .running iteration attempt groups } := by
  have hrunning := h.waits hphase
  obtain ⟨howed, before, message, calls, done, results, hround⟩ := hrunning
  have hcopied := h.copied (by rw [hphase]; exact nofun)
  have hanswers := answers_groupResults houtcomes
  have hsublist := executedResults_sublist group outcomes
  refine ⟨h.session, ?_, fun hsettled => ?_, fun _ => hcopied.append hsublist, howed, before,
    message, calls, done ++ group, results ++ groupResults group outcomes, ?_⟩
  · intro msg hmsg
    rcases mem_append.mp hmsg with hmsg | hmsg
    · exact h.tools msg hmsg
    · exact isTool_of_answers hanswers msg (hsublist.mem hmsg)
  · exact absurd (howed.symm.trans hsettled) nofun
  · refine ⟨hround.response, ?_, hround.committed, ?_, hround.ids,
      rel_append hround.answered hanswers, hround.paired, hround.pending, hround.allowed,
      fun hnone => ?_⟩
    · dsimp only
      rw [hround.copy, append_assoc]
      rfl
    · rw [hround.parts, flatten_cons, append_assoc]
    · obtain ⟨hdone, rfl⟩ := append_eq_nil_iff.mp hnone
      have hexecuted := hround.executed hdone
      unfold executedResults
      simpa using hexecuted

theorem ChatInv.endRun (h : ChatInv env s) (hphase : s.phase = .running iteration attempt groups)
    (hend : groups = [] ∨ s.aborted = true) :
    ChatInv env { s with phase := .looping iteration } := by
  have hrunning := h.waits hphase
  obtain ⟨howed, before, message, calls, done, results, hround⟩ := hrunning
  refine ⟨h.session, h.tools, h.settled, fun _ => h.copied (by rw [hphase]; exact nofun), ?_⟩
  intro haborted _
  rcases hend with rfl | hend
  · obtain ⟨content, reasoning, hmessage⟩ := hround.response
    have hcalls := hround.parts
    rw [flatten_nil, append_nil] at hcalls
    have hanswered := hround.answered
    rw [← hcalls] at hanswered
    rw [hround.copy, hmessage]
    exact hround.paired.snoc_round hround.ids hanswered
  · exact absurd (haborted.symm.trans hend) nofun

theorem done_of_sage {calls done rest : List ToolCall}
    (hallowed : sageToolBlockAllowed calls = true) (hcalls : calls = done ++ call :: rest)
    (hsage : call.isSage = true) : done = [] := by
  unfold sageToolBlockAllowed at hallowed
  have hany : calls.any ToolCall.isSage = true := by
    rw [hcalls]
    simp [hsage]
  rw [hany] at hallowed
  have hlength : calls.length = 1 := by simpa using hallowed
  rw [hcalls, length_append, length_cons] at hlength
  exact length_eq_zero_iff.mp (by omega)

theorem ChatInv.publish (h : ChatInv env s)
    (hphase : s.phase = .running iteration attempt ([call] :: groups))
    (hsage : call.isSage = true) (report : JsString × Option JsString) :
    ChatInv env (env.publish s attempt report) := by
  have hrunning := h.waits hphase
  obtain ⟨howed, before, message, calls, done, results, hround⟩ := hrunning
  obtain ⟨pending, hchosen, hbefore⟩ := hround.pending
  obtain ⟨hsession, hmessages⟩ :=
    canonical_commit_spec h.session pending (.report report.1 report.2)
  have hcalls := hround.parts
  have hexecuted := hround.executed (done_of_sage hround.allowed hcalls hsage)
  unfold ChatEnv.publish ChatEnv.commit
  rw [hchosen]
  refine ⟨hsession, h.tools, fun _ => ?_, fun hidle => absurd rfl hidle, rfl⟩
  dsimp only [map_some]
  rw [hmessages, hbefore]
  exact ⟨hround.paired.snoc rfl, hexecuted.trans (sublist_append_left _ _)⟩

theorem ChatInv.idle (h : ChatInv env s) (howed : s.owed = false) :
    ChatInv env { s with phase := .idle } :=
  ⟨h.session, h.tools, h.settled, fun hidle => absurd rfl hidle, howed⟩

variable [DecidableEq D]

theorem choose_attempt (hok : SessionOk env manager) (request : Request Message Value)
    (options : ChooseOptions) (retried : Bool) :
    SessionOk env (env.session.choosePayload manager request options).2 ∧
      ∃ pending, AttemptOk env (env.session.choosePayload manager request options).2
        ⟨request, (env.session.choosePayload manager request options).1, retried⟩
        request.fullMessages pending := by
  refine ⟨hok, ?_⟩
  obtain ⟨hactive, state, hstate, hhashed⟩ := hok
  obtain ⟨pending, hpending, hheld⟩ := choose_ok hhashed request options
  have hsession : ∀ other, manager.state = some other → env.session.Hashed other := by
    intro other hother
    obtain rfl := some.inj (hstate.symm.trans hother)
    exact hhashed
  refine ⟨pending, rfl, ?_, ?_, ?_⟩
  · unfold Env.choosePayload
    rw [hactive, hashFullMessages_eq hsession, hstate]
    exact hpending
  · obtain rfl := some.inj hpending
    rfl
  · change HeldOk env.session manager.state _
    rw [hstate]
    exact hheld

/-! ### Runs -/

theorem ChatInv.step (hinj : Function.Injective env.digest) {s t : Chat D} {action : ChatAction}
    (h : ChatInv env s) (hstep : ChatStep env s action t) (horderly : Orderly env s action) :
    ChatInv env t := by
  cases hstep with
  | begin input hphase =>
    refine h.begin hphase input _ ?_ ?_
    · cases input.probe <;> rfl
    · cases input.probe <;> rfl
  | plan round urls now hphase hurls hround => exact h.plan hphase hurls now
  | crawl round call rest content hphase haborted => exact h.crawl hphase content
  | stopCrawling round rest hphase haborted =>
    refine ⟨h.session, h.tools, h.settled, fun _ => h.copied (by rw [hphase]; exact nofun), ?_⟩
    exact fun hrunning => absurd (haborted.symm.trans hrunning) nofun
  | brief round content hphase hround =>
    have hpaired := h.waits hphase
    have hcopied := h.copied (by rw [hphase]; exact nofun)
    refine ⟨h.session, h.tools, h.settled, fun _ => hcopied.trans (sublist_append_left _ _), ?_⟩
    exact fun haborted hclient => (hpaired haborted hclient).snoc rfl
  | enterLoop round hphase =>
    have hpaired := h.waits hphase
    exact ⟨h.session, h.tools, h.settled, fun _ => h.copied (by rw [hphase]; exact nofun),
      hpaired⟩
  | choose iteration rest tools allowDelta hphase hiteration haborted =>
    have hpaired := h.waits hphase
    obtain ⟨hsession, hattempt⟩ := choose_attempt h.session (s.request rest tools)
      (iterationOptions allowDelta s.forceReset) false
    exact ⟨hsession, h.tools, h.settled, fun _ => h.copied (by rw [hphase]; exact nofun),
      hpaired haborted, hattempt⟩
  | retry iteration attempt allowDelta hphase hmode hfirst =>
    have hpaired := h.waits hphase
    obtain ⟨hpaired, pending, hok⟩ := hpaired
    obtain ⟨hsession, hattempt⟩ := choose_attempt h.session attempt.request
      (retryOptions allowDelta) true
    rw [hok.request] at hattempt
    exact ⟨hsession, h.tools, h.settled, fun _ => h.copied (by rw [hphase]; exact nofun),
      hpaired, hattempt⟩
  | respond iteration attempt response finalization intentBlocked hphase =>
    unfold Orderly at horderly
    dsimp only at horderly
    cases hdisposition : env.disposition response finalization intentBlocked with
    | retried guidance =>
      have hpaired := h.waits hphase
      have hcopied := h.copied (by rw [hphase]; exact nofun)
      refine ⟨h.session, h.tools, h.settled, fun _ => hcopied.trans (sublist_append_left _ _), ?_⟩
      exact fun _ hclient => (hpaired.1 hclient).snoc rfl
    | ended =>
      rw [hdisposition] at horderly
      exact h.idle horderly
    | committed =>
      rw [hdisposition] at horderly
      exact h.respond_committed hinj hphase horderly.1 horderly.2.1 horderly.2.2
  | run iteration attempt group groups outcomes hphase haborted houtcomes =>
    exact h.run hphase houtcomes
  | publish iteration attempt call groups outcome report hphase haborted hsage =>
    exact h.publish hphase hsage report
  | endRun iteration attempt groups hphase hend => exact h.endRun hphase hend
  | abort =>
    refine ⟨h.session, h.tools, h.settled, h.copied, ?_⟩
    have hphase := h.phase
    unfold PhaseOk at hphase ⊢
    cases hcase : s.phase with
    | idle => rwa [hcase] at hphase
    | planning round => exact nofun
    | looping iteration => exact nofun
    | crawling round rest =>
      rw [hcase] at hphase
      obtain ⟨hrest, before, calls, done, results, hcopy, hparts, hids, hresults, -⟩ := hphase
      exact ⟨hrest, before, calls, done, results, hcopy, hparts, hids, hresults, nofun⟩
    | requesting iteration attempt => rwa [hcase] at hphase
    | running iteration attempt groups =>
      rw [hcase] at hphase
      obtain ⟨howed, before, message, calls, done, results, hround⟩ := hphase
      exact ⟨howed, before, message, calls, done, results, { hround with }⟩
  | leave lost hphase =>
    obtain ⟨howed, rfl⟩ := horderly
    rw [append_nil]
    exact h.idle howed

/-- At the end of every turn the calls of the transcript are paired with their results, and
the results of all tools that ran are among them. -/
theorem results_follow_calls (hinj : Function.Injective env.digest) (now counter : ℕ) {s : Chat D}
    (hrun : Run.Guarded (ChatStep env) (Orderly env) (env.start now counter) s)
    (hidle : s.phase = .idle) :
    Paired s.manager.messages ∧ s.executed.Sublist s.manager.messages := by
  have hinv : ∀ s action t, ChatInv env s → ChatStep env s action t → Orderly env s action →
      ChatInv env t := fun _ _ _ h hstep horderly => h.step hinj hstep horderly
  have h := hrun.invariant hinv (ChatInv.start now counter)
  have howed := h.waits hidle
  exact h.settled howed

end

/-! ### A turn that is left early -/

theorem Paired.last {content reasoning : Option JsString}
    (h : Paired (a ++ [.assistant content reasoning calls])) : calls = [] := by
  generalize hlist : a ++ [.assistant content reasoning calls] = list at h
  induction h generalizing a with
  | nil => exact absurd hlist (by simp)
  | @plain msg rest hmsg _ ih =>
    cases a with
    | nil =>
      obtain ⟨rfl, -⟩ := cons.inj hlist
      exact isEmpty_iff.mp hmsg
    | cons first a => exact ih (cons.inj hlist).2
  | @round content' reasoning' calls' results rest _ hresults _ ih =>
    cases a with
    | nil =>
      obtain ⟨hfirst, hnone⟩ := cons.inj hlist
      obtain ⟨rfl, -⟩ := append_eq_nil_iff.mp hnone.symm
      cases hresults
      exact (Message.assistant.inj hfirst).2.2
    | cons first a =>
      have hrest := (cons.inj hlist).2
      rcases append_eq_append_iff.mp hrest with ⟨mid, hmid, hlast⟩ | ⟨mid, hmid, hlast⟩
      · cases mid with
        | nil => exact ih (a := []) (by simpa using hlast)
        | cons msg mid =>
          have hmem : Message.assistant content reasoning calls ∈ results := by
            obtain ⟨rfl, -⟩ := cons.inj hlast
            rw [hmid]
            simp
          exact absurd (isTool_of_answers hresults _ hmem) (by simp [Message.isTool])
      · exact ih hlast.symm

def plainChat : ChatEnv Bytes where
  digest := id
  agentTools := .arr []
  json :=
    { parse := fun _ => some (.obj [])
      stringify := fun _ => js "{}" }

def listDirectory : Response where
  content := []
  reasoning := []
  deltas := [⟨some 0, some (js "call_a"), some (js "list"), none⟩]
  finishReason := some (js "tool_calls")

def answer : Response where
  content := js "done"
  reasoning := []
  deltas := []
  finishReason := some (js "stop")

def firstTurn : TurnInput where
  systemPrompt := js "agent"
  clientMessages := []
  userMessage := some (js "look around")
  sagePolicy := none
  probe := none
  capsule := none
  overBudget := false

theorem results_follow_calls_answered : ∃ s : Chat Bytes,
    Run.Guarded (ChatStep plainChat) (Orderly plainChat) (plainChat.start 0 1) s ∧
      s.phase = .idle ∧ s.executed = [.tool (js "src") (some (js "call_a")) none] ∧
      Paired s.manager.messages ∧ s.executed.Sublist s.manager.messages := by
  have hinit : Run.Guarded (ChatStep plainChat) (Orderly plainChat) (plainChat.start 0 1) _ :=
    .refl _
  have hbegin := hinit.snoc (.begin _ firstTurn rfl) trivial
  have hloop := hbegin.snoc (.enterLoop _ 0 rfl) trivial
  have hchosen := hloop.snoc (.choose _ 0 (.obj []) (.arr []) false rfl (by decide) rfl) trivial
  have hcalled := hchosen.snoc (.respond _ 1 _ listDirectory .allowed false rfl)
    ⟨.nil, by decide, .inr rfl⟩
  have hran := hcalled.snoc (.run _ 1 _ _ _ [⟨js "src", true⟩] rfl rfl rfl) trivial
  have hback := hran.snoc (.endRun _ 1 _ _ rfl (.inl rfl)) trivial
  have hagain := hback.snoc (.choose _ 1 (.obj []) (.arr []) false rfl (by decide) rfl) trivial
  have hanswered := hagain.snoc (.respond _ 2 _ answer .allowed false rfl)
    ⟨.nil, by decide, .inl rfl⟩
  exact ⟨_, hanswered, rfl, rfl, results_follow_calls Function.injective_id 0 1 hanswered rfl⟩

/-- The client goes away while the tool of the first response runs. -/
theorem unanswered_call_stays : Function.Injective plainChat.digest ∧
    ∃ s : Chat Bytes, Run.Free (ChatStep plainChat) (plainChat.start 0 1) s ∧
      s.phase = .idle ∧ s.executed = [.tool (js "src") (some (js "call_a")) none] ∧
      s.manager.messages = [.system (js "agent"), .user (js "look around"),
        .assistant none none [⟨js "call_a", js "list", js "{}"⟩]] ∧
      ¬ Paired s.manager.messages := by
  have hinit : Run.Free (ChatStep plainChat) (plainChat.start 0 1) _ := .refl _
  have hbegin := hinit.snoc (.begin _ firstTurn rfl) trivial
  have hloop := hbegin.snoc (.enterLoop _ 0 rfl) trivial
  have hchosen := hloop.snoc (.choose _ 0 (.obj []) (.arr []) false rfl (by decide) rfl) trivial
  have hcalled := hchosen.snoc (.respond _ 1 _ listDirectory .allowed false rfl) trivial
  have hran := hcalled.snoc (.run _ 1 _ _ _ [⟨js "src", true⟩] rfl rfl rfl) trivial
  have hleft := (hran.snoc (.abort _) trivial).snoc (.leave _ [] nofun) trivial
  refine ⟨Function.injective_id, _, hleft, rfl, rfl, rfl, fun hpaired => ?_⟩
  have hlast := Paired.last (a := [.system (js "agent"), .user (js "look around")]) hpaired
  exact absurd hlast (by decide)

end Ds4Studio.Web
