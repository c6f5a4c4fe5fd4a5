import Ds4Studio.Agent.TurnSteps

/-!
The messages a turn leaves in the transcript. A turn appends complete messages as long as
every round can be read and evaluated, the model simulates no result, a result that was
executed can be recorded, and no report of the mathematical tool is published.
-/

namespace Ds4Studio.Agent

open Bytes Exit List Tokenizer

/-! ### What is promised -/

/-- Where the appended messages stand: in front of a message, inside an assistant message,
or behind the assistant message of a round, with the results recorded since and the one
that is still to be recorded. -/
inductive Phase where
  | between
  | opened
  | closed (results : ℕ) (pending : Option (Bytes × Option Bytes))

/-- A result is recorded as it is, compressed, or as the error that it does not fit. -/
def Records (result : Bytes) (compressed : Option Bytes) (text : Bytes) : Prop :=
  text = compressed.getD result ∨ ∃ projected ctx, text = doesNotFit projected ctx

/-- Which items may follow. -/
inductive Follows (eos : ℤ) : Phase → Item → Phase → Prop
  | message {role : Role} {text : Bytes} (hrole : role ≠ .assistant) :
      Follows eos .between (.message role text) .between
  | control {tokens : List ℤ} : Follows eos .between (.control tokens) .between
  | assistantPrefix {think : Bool} : Follows eos .between (.assistantPrefix think) .opened
  | token {token : ℤ} (htoken : token ≠ eos) : Follows eos .opened (.token token) .opened
  | eos : Follows eos .opened .eos (.closed 0 none)
  | executed {n : ℕ} {result : Bytes} {compressed : Option Bytes} :
      Follows eos (.closed n none) (.executed result compressed)
        (.closed n (some (result, compressed)))
  | result {n : ℕ} {result text : Bytes} {compressed : Option Bytes}
      (hrecords : Records result compressed text) :
      Follows eos (.closed n (some (result, compressed))) (.message .tool text)
        (.closed (n + 1) none)
  | error {n : ℕ} {text : Bytes} :
      Follows eos (.closed n none) (.message .tool text) (.closed (n + 1) none)
  | answer {n : ℕ} {text : Bytes} :
      Follows eos (.closed n none) (.message .assistant text) .opened
  | continued {n : ℕ} (hn : n ≤ 1) : Follows eos (.closed n none) .continued .between
  | evicted {p : Phase} {transcript : List ℤ} (hp : p ≠ .opened) :
      Follows eos p (.evicted transcript) p
  | compacted {p : Phase} {transcript : List ℤ} (hp : p ≠ .opened) :
      Follows eos p (.compacted transcript) p

inductive Accepts (eos : ℤ) : List Item → Phase → Prop
  | nil : Accepts eos [] .between
  | snoc {log : List Item} {item : Item} {p p' : Phase} (h : Accepts eos log p)
      (hitem : Follows eos p item p') : Accepts eos (log ++ [item]) p'

/-- No message is open and no executed result is missing. -/
def Phase.Complete : Phase → Prop
  | .between => True
  | .opened => False
  | .closed _ pending => pending = none

/-- The tokens an item appends, if it appends to what is there. -/
def itemTokens (env : TurnEnv) : Item → Option (List ℤ)
  | .message role text => some (chatAppendMessage env.base.vocab role text)
  | .control tokens => some tokens
  | .assistantPrefix think => some (chatAppendAssistantPrefix env.base.vocab think)
  | .token token => some [token]
  | .eos => some [env.base.vocab.eosId]
  | .executed _ _ | .continued => some []
  | .evicted _ | .compacted _ => none

/-- The transcript a log leads to. -/
inductive Extends (env : TurnEnv) (start : List ℤ) : List Item → List ℤ → Prop
  | nil : Extends env start [] start
  | push {log : List Item} {item : Item} {transcript tokens : List ℤ}
      (h : Extends env start log transcript) (hitem : itemTokens env item = some tokens) :
      Extends env start (log ++ [item]) (transcript ++ tokens)
  | evicted {log : List Item} {core : Worker} (h : Extends env start log core.transcript)
      (r : Rebuild) :
      Extends env start (log ++ [.evicted (r.evicted env core).transcript])
        (r.evicted env core).transcript
  | compacted {log : List Item} {core : Worker} (h : Extends env start log core.transcript)
      (r : Rebuild) :
      Extends env start (log ++ [.compacted (r.compacted env core).transcript])
        (r.compacted env core).transcript

/-- The worker has extended the transcript by complete messages only. -/
def WellFormed (env : TurnEnv) (start : List ℤ) (w : TurnWorker) : Prop :=
  (∃ p, Accepts env.base.vocab.eosId w.log p ∧ p.Complete) ∧
    Extends env start w.log w.core.transcript

/-! ### The condition -/

/-- The tools of the round are executed. -/
def Verdict.executes (v : Verdict) : Bool := !v.plain && !v.early && !v.degenerate && !v.malformed

/-- The result, compressed or not, or at least the error in its place can be recorded. -/
def Recordable (env : TurnEnv) (f : Finish) (result : Bytes) (core : Worker) : Prop :=
  let text := f.compressed.getD result
  let rebuilt := f.rebuild.compacted env core
  fitsContext env core text agentToolResultReserveTokens ∨
    f.rebuild.compacts core ∧
      (fitsContext env rebuilt text agentToolResultReserveTokens ∨
        fitsContext env rebuilt
          (doesNotFit (projectedTokens env rebuilt text) env.base.ctxSize) 16)

variable {σ : Type}

/-- The prefill succeeds and leaves room. -/
def CleanRound (env : TurnEnv) (toolRound : ℕ) (r : Rebuild) (sync : SyncResult)
    (w : TurnWorker) : Prop :=
  toolRound < env.maxToolRounds → ∀ w', continueRound env toolRound r w = (w', true) →
    match syncTranscript env (openRound env w') sync with
    | .interrupted => True
    | .failed => False
    | .ok => 0 < roundTokens env (openRound env w')

/-- The evaluations succeed, also those of forced text, which has no end of sentence. -/
def CleanSample (env : TurnEnv) (sm : Stream σ) (token : ℤ) (evalOk : ℕ → Bool) (l : Locals σ) :
    Prop :=
  (∀ i, evalOk i = true) ∧
    ((sm.offer l.stream (tokenText env.base.vocab token)).2 = true →
      (forcedTokens env).length ≤ l.maxTokens - l.generated ∧
        env.base.vocab.eosId ∉ forcedTokens env)

/-- The guard of the mathematical tool stops the turn behind calls that leave the tool so. -/
def SageStops (f : Finish) (v : Verdict) (s : Sage) : Prop :=
  (v.calls.head?.bind ToolCall.name) = some sageName ∧
    (sageLoopReason (s.counted f.now) f.now).isSome = true

/-- No result is simulated, an executed one can be recorded, and no report is published. -/
def CleanFinish (env : TurnEnv) (sm : Stream σ) (f : Finish) (l : Locals σ) (w : TurnWorker) :
    Prop :=
  let v := verdict env sm l (sm.finish l.stream).1
  let e := executeToolCalls env.sage f v.calls w.sage
  f.interrupted = false →
    (v.plain = true → isFabricatedResult v.genText = true →
      w.sage.turn.used = true ∧ w.sage.turn.canFinalize = false) ∧
    (v.executes = true → (SageStops f v e.sage ∨ e.sage.turn.canFinalize = false) ∧
      Recordable env f e.text (w.pushEos env).core)

def Clean (env : TurnEnv) (sm : Stream σ) (st : TurnState σ) (input : Input) : Prop :=
  match st.control, input with
  | .head toolRound, .round r sync => CleanRound env toolRound r sync st.worker
  | .decode _ l, .sample _ token evalOk => CleanSample env sm token evalOk l
  | .ended _ l, .finish f => CleanFinish env sm f l st.worker
  | _, _ => True

/-! ### The worker stands at a phase -/

/-- A report is ready only where `stops` holds of the tool. -/
structure Stands (stops : Sage → Prop) (env : TurnEnv) (start : List ℤ) (p : Phase)
    (w : TurnWorker) : Prop where
  accepts : Accepts env.base.vocab.eosId w.log p
  replays : Extends env start w.log w.core.transcript
  unready : stops w.sage ∨ w.sage.turn.canFinalize = false

abbrev Sound := Stands fun _ => False

def Returned (env : TurnEnv) (start : List ℤ) (w : TurnWorker) : Prop :=
  ∃ stops p, Stands stops env start p w ∧ p.Complete

variable {stops : Sage → Prop} {env : TurnEnv} {start : List ℤ} {p p' : Phase} {w w' : TurnWorker}

theorem Stands.unfinal (h : Sound env start p w) : w.sage.turn.canFinalize = false :=
  h.unready.resolve_left id

section

variable (h : Stands stops env start p w)

include h

theorem Stands.of_same (hlog : w'.log = w.log)
    (htranscript : w'.core.transcript = w.core.transcript)
    (hunready : stops w'.sage ∨ w'.sage.turn.canFinalize = false) :
    Stands stops env start p w' := by
  refine ⟨?_, ?_, hunready⟩
  · rw [hlog]
    exact h.accepts
  · rw [hlog, htranscript]
    exact h.replays

theorem Stands.publish (events : List Event) : Stands stops env start p (w.publish events) :=
  h.of_same rfl rfl h.unready

theorem Stands.noteSystemPromptSeen : Stands stops env start p w.noteSystemPromptSeen :=
  h.of_same rfl rfl h.unready

theorem Stands.push {tokens : List ℤ} {item : Item} (hitem : itemTokens env item = some tokens)
    (hf : Follows env.base.vocab.eosId p item p') :
    Stands stops env start p' (w.push tokens item) :=
  ⟨h.accepts.snoc hf, h.replays.push hitem, h.unready⟩

theorem Stands.append {role : Role} {text : Bytes}
    (hf : Follows env.base.vocab.eosId p (.message role text) p') :
    Stands stops env start p' (w.append env role text) :=
  h.push rfl hf

theorem Stands.note {item : Item} (hitem : itemTokens env item = some [])
    (hf : Follows env.base.vocab.eosId p item p') : Stands stops env start p' (w.note item) := by
  refine ⟨h.accepts.snoc hf, ?_, h.unready⟩
  have hpush := h.replays.push hitem
  rw [append_nil] at hpush
  exact hpush

end

theorem Stands.recordToolResult {text : Bytes} (h : Stands stops env start p w)
    (hf : Follows env.base.vocab.eosId p (.message .tool text) p') :
    Stands stops env start p' (w.recordToolResult env text) := by
  refine ⟨h.accepts.snoc hf, ?_, h.unready⟩
  have htokens : itemTokens env (.message .tool text) =
      some (chatAppendMessage env.base.vocab .tool text) := rfl
  have hpush := h.replays.push htokens
  rw [← appendToolResult_transcript] at hpush
  exact hpush

/-! ### Rebuilds -/

theorem Stands.compactWorker (h : Stands stops env start p w) (hp : p ≠ .opened) (r : Rebuild) :
    Stands stops env start p (compactWorker env r w).1 := by
  unfold Agent.compactWorker
  split
  · exact h
  · split
    · exact ⟨h.accepts.snoc (.compacted hp), h.replays.compacted r, h.unready⟩
    · exact h.publish _

theorem compactWorker_compacts (env : TurnEnv) (r : Rebuild) (w : TurnWorker) :
    (compactWorker env r w).2 = r.compacts w.core := by
  unfold compactWorker
  by_cases hshort : w.core.transcript.length ≤ r.sys.length
  · simp [hshort, Rebuild.compacts]
  · by_cases hcompacts : r.compacts w.core = true
    · simp [hshort, hcompacts]
    · simp [hshort, hcompacts]

theorem compactWorker_core (env : TurnEnv) (r : Rebuild) (w : TurnWorker)
    (h : r.compacts w.core = true) : (compactWorker env r w).1.core = r.compacted env w.core := by
  unfold compactWorker
  by_cases hshort : w.core.transcript.length ≤ r.sys.length
  · simp [hshort, Rebuild.compacted, compact]
  · simp [hshort, h, TurnWorker.rebuilt]

theorem evicted_unchanged (env : TurnEnv) (r : Rebuild) (w : Worker)
    (h : r.evicts env w = false) : (r.evicted env w).transcript = w.transcript := by
  simp only [Rebuild.evicts, Bool.and_eq_false_iff] at h
  simp only [Rebuild.evicted, evictToolResults]
  split
  · rfl
  · rename_i hevicted
    split
    · rename_i hsynced
      simp [hevicted, hsynced] at h
    · rfl

theorem Stands.evictWorker (h : Sound env start p w) (hp : p ≠ .opened) (r : Rebuild) :
    Sound env start p (evictWorker env r w) := by
  unfold Agent.evictWorker
  by_cases hevicts : r.evicts env w.core = true
  · rw [if_pos hevicts]
    exact ⟨h.accepts.snoc (.evicted hp), h.replays.evicted r, h.unready⟩
  · rw [if_neg hevicts]
    exact h.of_same rfl (evicted_unchanged env r w.core (Bool.eq_false_iff.mpr hevicts)) h.unready

theorem Stands.evictIfNeeded (h : Sound env start p w) (hp : p ≠ .opened) (r : Rebuild) :
    Sound env start p (evictIfNeeded env r w) := by
  unfold Agent.evictIfNeeded
  split
  · exact h.evictWorker hp r
  · exact h

theorem Stands.compactIfNeeded (h : Sound env start p w) (hp : p ≠ .opened) (r : Rebuild) :
    Sound env start p (compactIfNeeded env r w).1 := by
  unfold Agent.compactIfNeeded
  split
  · exact (h.evictIfNeeded hp r).compactWorker hp r
  · exact h.evictIfNeeded hp r

theorem Stands.maybeAppendReminder (h : Sound env start .between w) :
    Sound env start .between (maybeAppendReminder env w) := by
  have hpush : Sound env start .between
      ((w.publish [.status (str "Re-injecting system prompt reminder...")]).push
        (systemReminder env) (.control (systemReminder env))) :=
    (h.publish _).push rfl .control
  simp only [Agent.maybeAppendReminder]
  split
  · exact h.noteSystemPromptSeen
  · split
    · exact h
    · split
      · exact (hpush.append (.message (by decide))).noteSystemPromptSeen
      · exact hpush.noteSystemPromptSeen

/-! ### The blocks of a turn -/

theorem returned_between (h : Sound env start .between w) : Returned env start w :=
  ⟨_, .between, h, trivial⟩

theorem returned_closed {n : ℕ} (h : Stands stops env start (.closed n none) w) :
    Returned env start w :=
  ⟨stops, .closed n none, h, rfl⟩

theorem beginTurn_sound (h : Extends env start w.log w.core.transcript) (hlog : w.log = [])
    (user date : Bytes) (r : Rebuild) :
    (beginTurn env user date r w).Holds (Sound env start .between) (Returned env start) := by
  have hreset : Sound env start .between (resetSage w) := by
    refine ⟨?_, h, .inr rfl⟩
    change Accepts _ w.log .between
    rw [hlog]
    exact .nil
  have hcompact := hreset.compactIfNeeded (fun hp => nomatch hp) r
  unfold beginTurn
  split
  · rename_i w' heq
    rw [heq] at hcompact
    exact returned_between hcompact
  · rename_i w' heq
    rw [heq] at hcompact
    have hdate : Sound env start .between (maybeAppendDatetime env date w') := by
      unfold maybeAppendDatetime
      split
      · exact hcompact
      · exact (hcompact.append (.message (by decide))).of_same rfl rfl hcompact.unready
    have huser : Sound env start .between
        ((maybeAppendDatetime env date w').append env .user user) :=
      hdate.append (.message (by decide))
    exact huser.of_same rfl rfl huser.unready

theorem roundHead_sound (sm : Stream σ) {toolRound : ℕ} {r : Rebuild} {sync : SyncResult}
    (h : Sound env start .between w) (hclean : CleanRound env toolRound r sync w) :
    Meets (roundHead env sm toolRound r sync w) (fun x => Sound env start .opened x.1)
      (Next.Holds (Sound env start .between) (Returned env start)) := by
  refine Meets.ite (fun _ => ?_) (fun hround => ?_)
  · exact returned_between (h.append (.message (by decide)))
  · have hcontinue : Sound env start .between (continueRound env toolRound r w).1 := by
      unfold continueRound
      split
      · exact h.compactIfNeeded (fun hp => nomatch hp) r
      · exact h
    have hround' := hclean (by omega)
    split
    · rename_i w' heq
      rw [heq] at hcontinue
      exact returned_between hcontinue
    · rename_i w' heq
      rw [heq] at hcontinue
      have hopen : Sound env start .opened (openRound env w') :=
        hcontinue.maybeAppendReminder.push rfl .assistantPrefix
      have hroom := hround' w' heq
      simp only
      cases hsync : syncTranscript env (openRound env w') sync with
      | interrupted => exact returned_closed ((hopen.publish _).push rfl .eos)
      | failed =>
        rw [hsync] at hroom
        exact hroom.elim
      | ok =>
        rw [hsync] at hroom
        have hfull : ¬ roundTokens env (openRound env w') ≤ 0 := by omega
        simp only [hfull, if_false]
        exact hopen

theorem rendererWrites_sound (h : Sound env start p w) (deferred : Option Bytes)
    (writes : List Bytes) : Sound env start p (rendererWrites w deferred writes).1 := by
  cases deferred with
  | none => exact h.publish _
  | some buffer => exact h

variable {sm : Stream σ}

theorem acceptToken_sound {token : ℤ} (l : Locals σ) (h : Sound env start .opened w)
    (htoken : token ≠ env.base.vocab.eosId) :
    Sound env start .opened (acceptToken env sm token w l).1 := by
  have hpush : Sound env start .opened (w.push [token] (.token token)) := h.push rfl (.token htoken)
  exact rendererWrites_sound hpush _ _

variable {l : Locals σ}

theorem sampleStep_sound (interrupt : Bool) {token : ℤ} {evalOk : ℕ → Bool}
    (h : Sound env start .opened w) (hclean : CleanSample env sm token evalOk l) :
    Meets (sampleStep env sm interrupt token evalOk w l) (fun x => Sound env start .opened x.1)
      (Next.Holds (Sound env start .between) (Returned env start)) := by
  obtain ⟨hok, hforced⟩ := hclean
  refine sampleStep_meets (fun w _ => Sound env start .opened w) h ?_ ?_ ?_
  · rintro t (⟨rfl, hne⟩ | ⟨hmem, hoffered⟩) w l h
    · exact acceptToken_sound l h hne
    · exact acceptToken_sound l h fun heq => (hforced hoffered).2 (heq ▸ hmem)
  · exact fun hoffered hlong => absurd (hforced hoffered).1 (Nat.not_le.mpr hlong)
  · intro w _ i hfails _
    rw [hok i] at hfails
    cases hfails

/-! ### The end of a round -/

/-- Whatever leaves a round has left complete messages. -/
abbrev Leaves (env : TurnEnv) (start : List ℤ) : Next → Prop :=
  Next.Holds (Sound env start .between) (Returned env start)

theorem sageBlock_sound (v : Verdict) (h : Sound env start (.closed 0 none) w) :
    Meets (sageBlock env v w)
      (fun w' => w' = w ∧ ¬ (v.plain ∧ w.sage.turn.used ∧ ¬ w.sage.turn.canFinalize))
      (Leaves env start) := by
  have herror : ∀ (turn : SageTurn) (text : Bytes), turn.canFinalize = false →
      Sound env start (.closed 1 none) ((w.setTurn turn).recordToolResult env text) := by
    intro turn text hturn
    have hset : Sound env start (.closed 0 none) (w.setTurn turn) := h.of_same rfl rfl (.inr hturn)
    exact hset.recordToolResult .error
  refine Meets.ite (fun _ => ?_) (fun hblock => ⟨rfl, hblock⟩)
  refine Meets.ite (fun _ => ?_) (fun _ => ?_)
  · have hblocked := herror w.sage.turn.block
      (str "SAGE_FINALIZATION_BLOCKED: complete the allowed next Sage phase.\n") h.unfinal
    exact hblocked.note rfl (.continued (by omega))
  · have hfailed := herror (w.sage.turn.block.fail (str "SAGE_FINALIZATION_BLOCKED"))
      (str "SAGE_FINALIZATION_BLOCKED: authoritative validation was not completed.\n") rfl
    exact returned_closed (hfailed.publish _)

theorem proseCheck_sound {v : Verdict} (h : Sound env start (.closed 0 none) w)
    (hprose : v.plain = true → isFabricatedResult v.genText = false) :
    Meets (proseCheck env v w) (fun w' => w' = w ∧ v.plain = false) (Leaves env start) := by
  refine Meets.ite (fun hplain => ?_) (fun hplain => ⟨rfl, Bool.eq_false_iff.mpr hplain⟩)
  rw [if_neg (by rw [hprose hplain]; decide)]
  refine Meets.ite (fun _ => ?_) (fun _ => ?_)
  · exact returned_closed ((h.publish _).append .error)
  · have hcounted : Sound env start (.closed 0 none)
        { w with
          consecutiveDefensive :=
            if isDefensiveText v.genText then w.consecutiveDefensive + 1 else 0 } :=
      h.of_same rfl rfl h.unready
    exact returned_closed (hcounted.publish _)

variable {f : Finish}

theorem roundResult_sound {v : Verdict} (h : Sound env start (.closed 0 none) w)
    (hplain : v.plain = false) (hunready : v.executes = true →
      stops (executeToolCalls env.sage f v.calls w.sage).sage ∨
        (executeToolCalls env.sage f v.calls w.sage).sage.turn.canFinalize = false) :
    Stands stops env start (.closed 0 none) (roundResult env f v w).1 ∨
      v.executes = true ∧
        (roundResult env f v w).2 = (executeToolCalls env.sage f v.calls w.sage).text ∧
        (roundResult env f v w).1.core = w.core ∧
        Stands stops env start (.closed 0 (some ((roundResult env f v w).2, f.compressed)))
          (roundResult env f v w).1 := by
  have hfailed : Stands stops env start (.closed 0 none)
      { w with consecutiveMalformed := w.consecutiveMalformed + 1 } :=
    ⟨h.accepts, h.replays, .inr h.unfinal⟩
  by_cases hearly : v.early = true
  · left
    simp only [roundResult, hearly, if_true]
    exact hfailed
  by_cases hdegenerate : v.degenerate = true
  · left
    simp only [roundResult, hearly, hdegenerate, if_true]
    exact hfailed.publish _
  by_cases hmalformed : v.malformed = true
  · left
    simp only [roundResult, hearly, hdegenerate, hmalformed, if_true]
    exact hfailed
  right
  have hexecutes : v.executes = true := by
    simp [Verdict.executes, hplain, hearly, hdegenerate, hmalformed]
  simp only [roundResult, hearly, hdegenerate, hmalformed]
  refine ⟨hexecutes, rfl, rfl, ?_⟩
  have hset : Stands stops env start (.closed 0 none)
      { w with
        sage := (executeToolCalls env.sage f v.calls w.sage).sage
        consecutiveMalformed := 0 } := ⟨h.accepts, h.replays, hunready hexecutes⟩
  exact (hset.publish _).note rfl .executed

theorem recordResult_sound {result : Bytes} (h : Stands stops env start p w) (hp : p ≠ .opened)
    (hf : ∀ text, Records result f.compressed text →
      Follows env.base.vocab.eosId p (.message .tool text) (.closed 1 none))
    (hleave : p.Complete ∨ Recordable env f result w.core) :
    Meets (recordResult env f result w) (fun x => Stands stops env start (.closed 1 none) x.1)
      (Leaves env start) := by
  have hrebuilt := h.compactWorker hp f.rebuild
  have hcompacts := compactWorker_compacts env f.rebuild w
  have hcore := compactWorker_core env f.rebuild w
  have hleft : ∀ {w : TurnWorker}, Stands stops env start p w → p.Complete →
      Returned env start w := fun hw hc => ⟨stops, p, hw, hc⟩
  refine Meets.ite (fun _ => h.recordToolResult (hf _ (Or.inl rfl))) (fun hfits => ?_)
  split
  · rename_i w' heq
    rw [heq] at hrebuilt hcompacts
    rcases hleave with hcomplete | hrecord
    · exact hleft hrebuilt hcomplete
    · rcases hrecord with hrecord | ⟨hrecord, -⟩
      · exact (hfits hrecord).elim
      · rw [← hcompacts] at hrecord
        cases hrecord
  · rename_i w' heq
    rw [heq] at hrebuilt hcompacts hcore
    have hcore' := hcore hcompacts.symm
    refine Meets.ite (fun _ => hrebuilt.recordToolResult (hf _ (Or.inl rfl))) (fun hfits' => ?_)
    refine Meets.ite (fun _ => hrebuilt.recordToolResult (hf _ (Or.inr ⟨_, _, rfl⟩)))
      (fun herror => ?_)
    rcases hleave with hcomplete | hrecord
    · exact hleft hrebuilt hcomplete
    · rcases hrecord with hrecord | ⟨-, hrecord | hrecord⟩
      · exact (hfits hrecord).elim
      · rw [← hcore'] at hrecord
        exact (hfits' hrecord).elim
      · rw [← hcore'] at hrecord
        exact (herror hrecord).elim

section
variable {n : ℕ}

theorem sageGuard_sound (f : Finish) (v : Verdict)
    (h : Stands (SageStops f v) env start (.closed n none) w) :
    Meets (sageGuard env f v w) (Sound env start (.closed n none)) (Leaves env start) := by
  refine Meets.ite (fun hsage => ?_) (fun hother => ?_)
  · simp only
    split
    · have hcounted : Stands (fun _ => True) env start (.closed n none)
          { w with sage := w.sage.counted f.now } := ⟨h.accepts, h.replays, .inl trivial⟩
      exact returned_closed ((hcounted.publish _).append .error)
    · rename_i hnone
      refine ⟨h.accepts, h.replays, .inr (h.unready.resolve_left fun hstops => ?_)⟩
      have hsome := hstops.2
      rw [hnone] at hsome
      cases hsome
  · exact ⟨h.accepts, h.replays, .inr (h.unready.resolve_left fun hstops => hother hstops.1)⟩

theorem publishFinal_sound (h : Sound env start (.closed n none) w) :
    Meets (publishFinal env w) (Sound env start (.closed n none)) (Leaves env start) := by
  unfold publishFinal
  split
  · exact h
  · exact h
  · rw [if_neg (by rw [h.unfinal]; decide)]
    exact h

theorem malformedGuard_sound (h : Sound env start (.closed n none) w) :
    Meets (malformedGuard env w) (Sound env start (.closed n none)) (Leaves env start) := by
  refine Meets.ite (fun _ => ?_) (fun _ => h)
  exact returned_closed ((h.publish _).append .error)

theorem countCalls_sound (call : ToolCall) (result : Bytes)
    (h : Sound env start (.closed n none) w) :
    Sound env start (.closed n none) (countCalls call result w) := by
  have hrecord : Sound env start (.closed n none) (countIdentical call w) := by
    unfold countIdentical
    split
    · exact h.of_same rfl rfl h.unready
    · exact h.of_same rfl rfl h.unready
  simp only [countCalls]
  split
  · exact hrecord.of_same rfl rfl hrecord.unready
  · split
    · exact hrecord.of_same rfl rfl hrecord.unready
    · exact hrecord.of_same rfl rfl hrecord.unready

theorem callGuard_sound (f : Finish) (v : Verdict) (result : Bytes)
    (h : Sound env start (.closed n none) w) :
    Meets (callGuard env f v result w) (Sound env start (.closed n none)) (Leaves env start) := by
  unfold callGuard
  split
  · exact h
  · rename_i call rest _
    have hcount := countCalls_sound call result h
    refine Meets.ite (fun _ => ?_) (fun _ => hcount)
    refine Meets.ite (fun _ => ?_) (fun _ => ?_)
    · exact returned_closed ((hcount.publish _).append .error)
    · refine Meets.ite (fun _ => ?_) (fun _ => ?_)
      · have hreset : Sound env start (.closed n none)
            (resetGuards (countCalls call result w)) := hcount.of_same rfl rfl hcount.unready
        exact hreset.publish _
      · exact returned_closed ((hcount.publish _).append .error)

end

theorem drainQueuedUser_sound (queued : Option Bytes) (h : Sound env start .between w) :
    Sound env start .between (drainQueuedUser env queued w) := by
  unfold drainQueuedUser
  split
  · exact h
  · exact h
  · exact h.append (.message (by decide))

theorem afterMessage_sound {v : Verdict} (h : Sound env start (.closed 0 none) w)
    (hprose : v.plain = true → isFabricatedResult v.genText = true →
      w.sage.turn.used = true ∧ w.sage.turn.canFinalize = false)
    (hexecutes : v.executes = true →
      (SageStops f v (executeToolCalls env.sage f v.calls w.sage).sage ∨
        (executeToolCalls env.sage f v.calls w.sage).sage.turn.canFinalize = false) ∧
        Recordable env f (executeToolCalls env.sage f v.calls w.sage).text w.core) :
    Meets (afterMessage env f v w) (Sound env start .between) (Leaves env start) := by
  refine (sageBlock_sound v h).bind ?_
  rintro w₀ ⟨hw₀, hblock⟩
  have hplain : v.plain = true → isFabricatedResult v.genText = false := by
    intro hplain
    by_contra hfabricated
    have hused := hprose hplain (by simpa using hfabricated)
    exact hblock ⟨hplain, hused.1, by rw [hused.2]; decide⟩
  rw [hw₀]
  refine (proseCheck_sound h hplain).bind ?_
  rintro w₁ ⟨hw₁, hplain⟩
  rw [hw₁]
  have hresult := roundResult_sound (f := f) h hplain fun he => (hexecutes he).1
  have hrecord : Meets (recordResult env f (roundResult env f v w).2 (roundResult env f v w).1)
      (fun x => Stands (SageStops f v) env start (.closed 1 none) x.1) (Leaves env start) := by
    rcases hresult with herror | ⟨he, htext, hcore, hpending⟩
    · exact recordResult_sound herror (fun hp => nomatch hp) (fun _ _ => .error) (Or.inl rfl)
    · refine recordResult_sound hpending (fun hp => nomatch hp) (fun _ ht => .result ht)
        (Or.inr ?_)
      rw [htext, hcore]
      exact (hexecutes he).2
  refine hrecord.bind fun x hx => ?_
  refine (sageGuard_sound f v hx).bind fun w₂ h₂ => ?_
  refine (publishFinal_sound h₂).bind fun w₃ h₃ => ?_
  refine (malformedGuard_sound h₃).bind fun w₄ h₄ => ?_
  refine (callGuard_sound f v x.2 h₄).bind fun w₅ h₅ => ?_
  exact drainQueuedUser_sound _ (h₅.note rfl (.continued (by omega)))

theorem roundEnd_sound (h : Sound env start .opened w) (hclean : CleanFinish env sm f l w) :
    Leaves env start (roundEnd env sm f l w) := by
  have hfinish : Sound env start (.closed 0 none)
      ((rendererWrites w l.deferred (sm.finish l.stream).2).1.pushEos env) :=
    (rendererWrites_sound h _ _).push rfl .eos
  have hsame : (rendererWrites w l.deferred (sm.finish l.stream).2).1.sage = w.sage ∧
      ((rendererWrites w l.deferred (sm.finish l.stream).2).1.pushEos env).core =
        (w.pushEos env).core := by
    cases l.deferred <;> exact ⟨rfl, rfl⟩
  refine roundEnd_holds (returned_closed (hfinish.publish _)) fun hgoes => ?_
  obtain ⟨hprose, hexecutes⟩ := hclean hgoes
  rw [← hsame.1] at hprose hexecutes
  rw [← hsame.2] at hexecutes
  exact afterMessage_sound hfinish hprose hexecutes

/-! ### Runs of a turn -/

/-- Where the worker stands at each point of a turn. -/
abbrev StateSound (env : TurnEnv) (start : List ℤ) : TurnState σ → Prop :=
  TurnState.Holds (fun w => w.log = [] ∧ w.core.transcript = start) (Sound env start .between)
    (fun w _ => Sound env start .opened w) (Returned env start)

theorem turnStep_sound {st : TurnState σ} {input : Input} (h : StateSound env start st)
    (hclean : Clean env sm st input) : StateSound env start (turnStep env sm st input) := by
  obtain ⟨control, w⟩ := st
  refine turnStep_holds h ?_ ?_ ?_ ?_
  · rintro user date r ⟨hlog, rfl⟩
    refine beginTurn_sound ?_ hlog user date r
    rw [hlog]
    exact .nil
  · intro toolRound r sync hcontrol hinput hw
    cases hcontrol
    cases hinput
    exact roundHead_sound sm hw hclean
  · intro toolRound l interrupt token evalOk hcontrol hinput hw
    cases hcontrol
    cases hinput
    exact sampleStep_sound interrupt hw hclean
  · intro toolRound l f hcontrol hinput hw
    cases hcontrol
    cases hinput
    exact roundEnd_sound hw hclean

theorem Returned.wellFormed (h : Returned env start w) : WellFormed env start w := by
  obtain ⟨_, p, hstands, hcomplete⟩ := h
  exact ⟨⟨p, hstands.accepts, hcomplete⟩, hstands.replays⟩

/-- A turn whose steps are all clean returns with complete messages only. -/
theorem turn_leaves_complete_messages {env : TurnEnv} {sm : Stream σ} {w : TurnWorker} {rc : ℤ}
    {st : TurnState σ} (hstart : w.log = [])
    (hrun : Run.Guarded (fun st input st' => turnStep env sm st input = st') (Clean env sm)
      ⟨.idle, w⟩ st)
    (hreturned : st.control = .returned rc) : WellFormed env w.core.transcript st.worker := by
  have hstep : ∀ (st : TurnState σ) input st', StateSound env w.core.transcript st →
      turnStep env sm st input = st' → Clean env sm st input →
      StateSound env w.core.transcript st' := by
    intro st input st' h hnext hclean
    rw [← hnext]
    exact turnStep_sound h hclean
  have hidle : StateSound env w.core.transcript (⟨.idle, w⟩ : TurnState σ) := ⟨hstart, rfl⟩
  have hsound := hrun.invariant hstep hidle
  unfold StateSound TurnState.Holds at hsound
  rw [hreturned] at hsound
  exact hsound.wellFormed

def quietStream : Stream Unit where
  start _ := ()
  text _ _ := ((), [])
  finish _ := ((), [])
  offer _ _ := ((), false)
  dsmlState _ := .search
  dsmlActive _ := false
  dsmlInThink _ := false
  preflightError _ := none
  error _ := []
  calls _ := []

def noSage : SageConfig where
  prompt := none
  policyRevision := []
  authoritativeLoop := true
  frontendPort := 0
  sessionSha := []
  parse _ := ⟨none, none, none, none, none, true, false, false, false, false⟩

/-- An agent whose context holds `ctxSize` tokens. -/
def turnEnv (ctxSize : ℕ) : TurnEnv where
  base := { sampleEnv with ctxSize := ctxSize }
  sage := noSage
  think := false
  nPredict := 10
  maxToolRounds := 50
  nonInteractive := true
  system := []
  reminder := []
  dsmlSyntaxReminder := []

def idleWorker : TurnWorker where
  core := .start fun _ => none
  sage := ⟨.fresh, none, 0, 0, 0, 0⟩
  datetimeInjected := true
  reminderAt := 0
  reminderTokens := 0
  consecutiveEmpty := 0
  consecutiveIdentical := 0
  consecutiveMalformed := 0
  consecutiveDefensive := 0
  ring _ := []
  ringPos := 0
  out := []
  log := []

def noRebuild : Rebuild := ⟨fun _ => false, false, [], none, false, none, false⟩

def interruptedFinish : Finish where
  interrupted := true
  toolResult _ := []
  sage := ⟨0, true, true, fun _ => .popenFailed⟩
  compressed := none
  rebuild := noRebuild
  now := 0
  userContinues := false
  stopRequested := false
  queuedUser := none

/-- The worker with an empty prompt. -/
def begun : TurnWorker := idleWorker.push [2] (.message .user [])

theorem beginTurn_begun (ctxSize : ℕ) :
    beginTurn (turnEnv ctxSize) [] [] noRebuild idleWorker = .head begun := by
  have hcompact : compactIfNeeded (turnEnv ctxSize) noRebuild (resetSage idleWorker) =
      (idleWorker, true) := by
    have hevict : evictIfNeeded (turnEnv ctxSize) noRebuild (resetSage idleWorker) = idleWorker := by
      simp [evictIfNeeded, shouldEvict, resetSage, idleWorker, Worker.start]
    have hshort : shouldCompact (turnEnv ctxSize) idleWorker.core = false := by
      simp [shouldCompact, idleWorker, Worker.start]
    simp [compactIfNeeded, hevict, hshort]
  have huser : chatAppendMessage (turnEnv ctxSize).base.vocab .user [] = [2] := by
    simp [chatAppendMessage, bpeTokenizeText, turnEnv, sampleEnv]
  simp only [beginTurn, hcompact, TurnWorker.append, huser]
  rfl

/-- The worker with an assistant message opened behind the prompt. -/
def opened : TurnWorker := begun.noteSystemPromptSeen.push [3, 5] (.assistantPrefix false)

/-! ### A turn with a call -/

/-- A stream in which every text is a call. -/
def callStream (call : Bytes → ToolCall) : Stream Bytes where
  start _ := []
  text s text := (s ++ text, [text])
  finish s := (s, [])
  offer s _ := (s, false)
  dsmlState s := if s = [] then .search else .done
  dsmlActive _ := false
  dsmlInThink _ := false
  preflightError _ := none
  error _ := []
  calls s := [call s]

/-- Two of the tokens have a text. -/
def callEnv (sage : SageConfig) : TurnEnv :=
  let base := (turnEnv 4096).base
  let token := replicate 7 [] ++ [str "compute", str "validate"]
  { turnEnv 4096 with sage := sage, base := { base with vocab := { base.vocab with token := token } } }

def callOf (name value : String) : ToolCall := ⟨some (str name), [(str "command", str value)]⟩

def callFinish : Finish := { interruptedFinish with interrupted := false }

/-- The model calls a tool, gets its result and ends. -/
def callTurn : List Input :=
  [.begin [] [] noRebuild, .round noRebuild .ok, .sample false 7 fun _ => true, .finish callFinish,
    .round noRebuild .ok, .sample false 1 fun _ => true, .finish callFinish]

def calledTurn : TurnState Bytes :=
  callTurn.foldl (turnStep (callEnv noSage) (callStream fun _ => callOf "bash" "ls"))
    ⟨.idle, idleWorker⟩

def Control.returnCode : Control σ → Option ℤ
  | .returned rc => some rc
  | _ => none

theorem Control.eq_returned {control : Control σ} {rc : ℤ} (h : control.returnCode = some rc) :
    control = .returned rc := by
  cases control with
  | returned rc' => rw [Option.some_inj.mp h]
  | idle | head | decode | ended => cases h

instance (env : TurnEnv) (toolRound : ℕ) (r : Rebuild) (sync : SyncResult) (w : TurnWorker) :
    Decidable (CleanRound env toolRound r sync w) :=
  decidable_of_iff (toolRound < env.maxToolRounds → (continueRound env toolRound r w).2 = true →
      let w' := openRound env (continueRound env toolRound r w).1
      syncTranscript env w' sync ≠ .failed ∧
        (syncTranscript env w' sync = .ok → 0 < roundTokens env w')) (by
    refine forall_congr' fun _ => ⟨fun h w' heq => ?_, fun h hcontinues => ?_⟩
    · rw [heq] at h
      obtain ⟨hread, hroom⟩ := h rfl
      cases hsync : syncTranscript env (openRound env w') sync with
      | ok => exact hroom hsync
      | interrupted => trivial
      | failed => exact hread hsync
    · have hclean := h _ (Prod.ext rfl hcontinues)
      intro w'
      cases hsync : syncTranscript env w' sync with
      | ok =>
        rw [hsync] at hclean
        exact ⟨nofun, fun _ => hclean⟩
      | interrupted => exact ⟨nofun, nofun⟩
      | failed =>
        rw [hsync] at hclean
        exact hclean.elim)

instance (f : Finish) (v : Verdict) (s : Sage) : Decidable (SageStops f v s) :=
  inferInstanceAs (Decidable (_ ∧ _))

instance (env : TurnEnv) (f : Finish) (result : Bytes) (core : Worker) :
    Decidable (Recordable env f result core) :=
  inferInstanceAs (Decidable (_ ∨ _ ∧ (_ ∨ _)))

instance (env : TurnEnv) (sm : Stream σ) (f : Finish) (l : Locals σ) (w : TurnWorker) :
    Decidable (CleanFinish env sm f l w) :=
  inferInstanceAs (Decidable (_ → _ ∧ _))

instance (env : TurnEnv) (sm : Stream σ) (st : TurnState σ) (r : Rebuild) (sync : SyncResult) :
    Decidable (Clean env sm st (.round r sync)) :=
  match st with
  | ⟨.head toolRound, w⟩ => inferInstanceAs (Decidable (CleanRound env toolRound r sync w))
  | ⟨.idle, _⟩ | ⟨.decode _ _, _⟩ | ⟨.ended _ _, _⟩ | ⟨.returned _, _⟩ => isTrue trivial

instance (env : TurnEnv) (sm : Stream σ) (st : TurnState σ) (f : Finish) :
    Decidable (Clean env sm st (.finish f)) :=
  match st with
  | ⟨.ended _ l, w⟩ => inferInstanceAs (Decidable (CleanFinish env sm f l w))
  | ⟨.idle, _⟩ | ⟨.head _, _⟩ | ⟨.decode _ _, _⟩ | ⟨.returned _, _⟩ => isTrue trivial

theorem callStream_clean (env : TurnEnv) (call : Bytes → ToolCall) (st : TurnState Bytes)
    (token : ℤ) : Clean env (callStream call) st (.sample false token fun _ => true) := by
  obtain ⟨control, w⟩ := st
  cases control with
  | decode _ l => exact ⟨fun _ => rfl, fun hreplaced => nomatch hreplaced⟩
  | idle | head | ended | returned => trivial

theorem turn_leaves_complete_messages_called :
    let result := str "Tool result 1 (bash):\n"
    calledTurn.worker.log = [.message .user [], .assistantPrefix false, .token 7, .eos,
      .executed result none, .message .tool result, .continued, .assistantPrefix false, .eos] ∧
      WellFormed (callEnv noSage) [] calledTurn.worker := by
  have hclean : Run.Each (turnStep (callEnv noSage) (callStream fun _ => callOf "bash" "ls"))
      (Clean (callEnv noSage) (callStream fun _ => callOf "bash" "ls")) ⟨.idle, idleWorker⟩
      callTurn :=
    ⟨trivial, by decide +kernel, callStream_clean _ _ _ _, by decide +kernel,
      by decide +kernel, callStream_clean _ _ _ _, by decide +kernel, trivial⟩
  have hreturned : calledTurn.control = .returned 0 := Control.eq_returned (by decide +kernel)
  exact ⟨by decide +kernel, turn_leaves_complete_messages rfl hclean.guarded hreturned⟩

theorem Accepts.snoc_inv {eos : ℤ} {log : List Item} {item : Item} {p' : Phase}
    (h : Accepts eos (log ++ [item]) p') : ∃ p, Accepts eos log p ∧ Follows eos p item p' := by
  generalize hlog : log ++ [item] = log' at h
  cases h with
  | nil => exact (append_ne_nil_of_right_ne_nil log (cons_ne_nil _ _) hlog).elim
  | snoc h hitem =>
    obtain ⟨rfl, heq⟩ := append_inj' hlog rfl
    rw [singleton_inj] at heq
    subst heq
    exact ⟨_, h, hitem⟩

/-- A turn in a full context returns with an assistant message that was only opened. -/
theorem turn_leaves_message_open :
    ¬ ∀ (env : TurnEnv) (sm : Stream Unit) (w : TurnWorker) (rc : ℤ) (st : TurnState Unit),
      w.log = [] → Run.Free (fun st input st' => turnStep env sm st input = st') ⟨.idle, w⟩ st →
        st.control = .returned rc → WellFormed env w.core.transcript st.worker := by
  intro hclaim
  have hbegin : turnStep (turnEnv 4) quietStream ⟨.idle, idleWorker⟩
      (.begin [] [] noRebuild) = ⟨.head 0, begun⟩ := by
    change leave 0 (beginTurn (turnEnv 4) [] [] noRebuild idleWorker) = _
    rw [beginTurn_begun]
    rfl
  have hstart : Run.Free (fun st input st' => turnStep (turnEnv 4) quietStream st input = st')
      ⟨.idle, idleWorker⟩ ⟨.idle, idleWorker⟩ := Run.Guarded.refl _
  have hfull : turnStep (turnEnv 4) quietStream ⟨.head 0, begun⟩ (.round noRebuild .ok) =
      ⟨.returned 0, opened.publish [.status (contextFull (turnEnv 4) opened)]⟩ := rfl
  have hrun := (hstart.snoc hbegin trivial).snoc hfull trivial
  obtain ⟨⟨p, haccepts, hcomplete⟩, -⟩ := hclaim _ _ _ 0 _ rfl hrun rfl
  obtain ⟨p', -, hlast⟩ := haccepts.snoc_inv
  cases hlast
  exact hcomplete

end Ds4Studio.Agent
