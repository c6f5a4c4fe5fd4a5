import Ds4Studio.Agent.Fingerprint
import Ds4Studio.Agent.Repetition
import Ds4Studio.Agent.Sage
import Ds4Studio.Agent.Spans
import Ds4Studio.Lib.Exit

/-!
One user turn of the agent: assistant rounds, each followed by the result of its tool
calls, until the model answers, a guard stops it or something fails. The stream parser and
the renderer enter as any machine that reads the generated text.
-/

namespace Ds4Studio.Agent

open Bytes Exit Tokenizer

/-! ### The worker -/

/-- What is appended to the transcript, and how a round goes on. -/
inductive Item where
  | message (role : Role) (text : Bytes)
  | control (tokens : List ℤ)
  | assistantPrefix (think : Bool)
  | token (token : ℤ)
  | eos
  | evicted (transcript : List ℤ)
  | compacted (transcript : List ℤ)
  | executed (result : Bytes) (compressed : Option Bytes)
  | continued
deriving DecidableEq

structure TurnWorker where
  core : Worker
  sage : Sage
  datetimeInjected : Bool
  reminderAt : ℤ
  reminderTokens : ℕ
  consecutiveEmpty : ℕ
  consecutiveIdentical : ℕ
  consecutiveMalformed : ℕ
  consecutiveDefensive : ℕ
  ring : ℕ → Bytes
  ringPos : ℕ
  out : List Event
  log : List Item

structure TurnEnv where
  base : Env
  sage : SageConfig
  think : Bool
  nPredict : ℤ
  maxToolRounds : ℕ
  nonInteractive : Bool
  /-- `-sys` -/
  system : Bytes
  reminder : Bytes
  dsmlSyntaxReminder : Bytes

inductive DsmlState where
  | search | structural | paramValue | done | error
deriving DecidableEq

/-- The stream parser with its renderer: what a text writes, and what the parser knows. -/
structure Stream (σ : Type) where
  start : Bool → σ
  text : σ → Bytes → σ × List Bytes
  finish : σ → σ × List Bytes
  /-- `agent_edit_upto_forcer_should_replace` -/
  offer : σ → Bytes → σ × Bool
  dsmlState : σ → DsmlState
  dsmlActive : σ → Bool
  dsmlInThink : σ → Bool
  preflightError : σ → Option Bytes
  error : σ → Bytes
  calls : σ → List ToolCall

namespace TurnWorker

def publish (w : TurnWorker) (events : List Event) : TurnWorker := { w with out := w.out ++ events }

def note (w : TurnWorker) (item : Item) : TurnWorker := { w with log := w.log ++ [item] }

/-- Appends tokens, under an entry of the log. -/
def push (w : TurnWorker) (tokens : List ℤ) (item : Item) : TurnWorker :=
  { w with core := w.core.append tokens, log := w.log ++ [item] }

def append (env : TurnEnv) (w : TurnWorker) (role : Role) (text : Bytes) : TurnWorker :=
  w.push (chatAppendMessage env.base.vocab role text) (.message role text)

def pushEos (env : TurnEnv) (w : TurnWorker) : TurnWorker := w.push [env.base.vocab.eosId] .eos

def appendAssistantPrefix (env : TurnEnv) (w : TurnWorker) : TurnWorker :=
  w.push (chatAppendAssistantPrefix env.base.vocab env.think) (.assistantPrefix env.think)

/-- `agent_worker_append_tool_result` -/
def recordToolResult (env : TurnEnv) (w : TurnWorker) (text : Bytes) : TurnWorker :=
  { w with
    core := appendToolResult env.base w.core text
    reminderTokens := w.reminderTokens + (chatAppendMessage env.base.vocab .tool text).length
    log := w.log ++ [.message .tool text] }

def setTurn (w : TurnWorker) (turn : SageTurn) : TurnWorker :=
  { w with sage := { w.sage with turn := turn } }

/-- `agent_worker_note_system_prompt_seen` -/
def noteSystemPromptSeen (w : TurnWorker) : TurnWorker :=
  { w with reminderAt := w.core.transcript.length, reminderTokens := 0 }

end TurnWorker

@[simp] theorem TurnWorker.publish_core (w : TurnWorker) (events : List Event) :
    (w.publish events).core = w.core := rfl

@[simp] theorem TurnWorker.publish_out (w : TurnWorker) (events : List Event) :
    (w.publish events).out = w.out ++ events := rfl

/-- How a block leaves a round: the loop goes on, or the turn has returned. -/
inductive Next where
  | head (w : TurnWorker)
  | returned (rc : ℤ) (w : TurnWorker)

/-- How a block may leave the round. -/
def Next.Holds (P Q : TurnWorker → Prop) : Next → Prop
  | .head w => P w
  | .returned _ w => Q w

/-! ### Compaction and reminders -/

/-- How the rebuilds of the transcript go. -/
structure Rebuild where
  writes : ℕ → Bool
  evictSynced : Bool
  sys : List ℤ
  summary : Option Bytes
  synced : Bool
  bashUpdate : Option Bytes
  interrupted : Bool

def agentCompactSoftPercent : ℕ := 85
def agentCompactMinFreeTokens : ℕ := 8192

def shouldCompact (env : TurnEnv) (w : Worker) : Bool :=
  let ctx := env.base.ctxSize
  let used := w.transcript.length
  0 < ctx && 0 < used &&
    (ctx * agentCompactSoftPercent / 100 ≤ used ||
      (ctx : ℤ) - used ≤ min agentCompactMinFreeTokens (ctx / 4))

def Rebuild.compacts (r : Rebuild) (w : Worker) : Bool :=
  w.transcript.length ≤ r.sys.length || (r.summary.any (!·.isEmpty) && r.synced)

def Rebuild.compacted (env : TurnEnv) (r : Rebuild) (w : Worker) : Worker :=
  compact env.base r.sys r.summary r.synced r.bashUpdate w

/-- The compacted transcript, with the note about running jobs counted as a tool result. -/
def TurnWorker.rebuilt (env : TurnEnv) (r : Rebuild) (w : TurnWorker) : TurnWorker :=
  let core := r.compacted env w.core
  let update := r.bashUpdate.elim 0 fun text => (chatAppendMessage env.base.vocab .tool text).length
  { w with
    core := core
    reminderAt := core.transcript.length - update
    reminderTokens := update
    log := w.log ++ [.compacted core.transcript] }

/-- `agent_worker_compact`: the summary is printed as it is generated. -/
def compactWorker (env : TurnEnv) (r : Rebuild) (w : TurnWorker) : TurnWorker × Bool :=
  if w.core.transcript.length ≤ r.sys.length then (w, true)
  else if r.compacts w.core then
    ((w.publish [.summary (r.summary.getD [])]).rebuilt env r, true)
  else (w.publish [.summary (r.summary.getD [])], false)

/-- Whether some result was archived and the shorter transcript could be read. -/
def Rebuild.evicts (env : TurnEnv) (r : Rebuild) (w : Worker) : Bool :=
  let old := w.toolSpans.take (w.toolSpans.length - agentEvictKeepRecent)
  (evictLoop env.base w.transcript r.writes 0 ⟨[], 0, 0, w.blobs⟩ old).evicted ≠ 0 && r.evictSynced

def Rebuild.evicted (env : TurnEnv) (r : Rebuild) (w : Worker) : Worker :=
  evictToolResults env.base r.writes r.evictSynced env.reminder w

/-- `agent_worker_evict_tool_results` -/
def evictWorker (env : TurnEnv) (r : Rebuild) (w : TurnWorker) : TurnWorker :=
  let core := r.evicted env w.core
  if r.evicts env w.core then
    { w with
      core := core
      reminderAt := core.transcript.length
      reminderTokens := 0
      log := w.log ++ [.evicted core.transcript] }
  else { w with core := core }

def evictIfNeeded (env : TurnEnv) (r : Rebuild) (w : TurnWorker) : TurnWorker :=
  if shouldEvict env.base w.core then evictWorker env r w else w

def compactIfNeeded (env : TurnEnv) (r : Rebuild) (w : TurnWorker) : TurnWorker × Bool :=
  if shouldCompact env (evictIfNeeded env r w).core then compactWorker env r (evictIfNeeded env r w)
  else (evictIfNeeded env r w, true)

/-- An interrupted compaction ends the turn quietly, any other failure with an error. -/
def compactionFailed (r : Rebuild) : ℤ := if r.interrupted then 0 else 1

def agentSystemPromptReminderTokens : ℕ := 50000
def agentReminderToolBurstTokens : ℕ := 20000

def sageTurnNextPhase : SageState → Bytes
  | .idle | .prepared => str "compute"
  | .computed => str "validate (or repair)"
  | .repairing => str "repair, then validate"
  | .validated | .plotted => str "plot"
  | .ready => str "finalize authoritative Markdown"
  | .failed => str "none; stop with the controlled error"

def buildSageTurnReminder (cfg : SageConfig) (s : SageTurn) : Bytes :=
  let text := str "[DS4 SAGE ACTIVE CONTRACT]\n" ++
    str "The Sage runtime controls phase order and validation.\n" ++
    str "Do not claim PASS.\n" ++
    str "Do not alter authoritative formulas, intervals, labels, or numbers.\n" ++
    str "Do not answer finally unless the runtime reports publishable=true.\n" ++
    str "Current state: " ++ sageStateName s.state ++ str ".\n" ++
    str "Allowed next phase: " ++ sageTurnNextPhase s.state ++ str ".\n" ++
    str "Run ID: " ++ (if s.runId = [] then str "pending" else s.runId) ++
    str ". Policy revision: " ++
    (if cfg.policyRevision = [] then str "unavailable" else cfg.policyRevision) ++ str ".\n" ++
    str "[/DS4 SAGE ACTIVE CONTRACT]"
  if text.length < 1200 then text
  else str "[DS4 SAGE ACTIVE CONTRACT]\nSage finalization is blocked until runtime validation.\n" ++
    str "[/DS4 SAGE ACTIVE CONTRACT]"

def systemReminder (env : TurnEnv) : List ℤ :=
  tokenizeRenderedChat env.base.vocab env.reminder ++
    if env.system = [] then []
    else
      bpeTokenizeText env.base.vocab (str "\nAdditional system instructions reminder:\n") ++
        bpeTokenizeText env.base.vocab env.system ++
        bpeTokenizeText env.base.vocab
          (str "\n[End additional system instructions reminder.]\n\n")

/-- `agent_worker_maybe_append_system_prompt_reminder` -/
def maybeAppendReminder (env : TurnEnv) (w : TurnWorker) : TurnWorker :=
  if w.reminderAt ≤ 0 then w.noteSystemPromptSeen
  else if ¬ agentReminderToolBurstTokens ≤ w.reminderTokens ∧
      (w.core.transcript.length : ℤ) - w.reminderAt < agentSystemPromptReminderTokens then w
  else
    let w := w.publish [.status (str "Re-injecting system prompt reminder...")]
    let w := w.push (systemReminder env) (.control (systemReminder env))
    let turn := w.sage.turn
    let w :=
      if turn.used ∧ ¬ turn.canFinalize ∧ turn.state ≠ .failed then
        w.append env .system (buildSageTurnReminder env.sage turn)
      else w
    w.noteSystemPromptSeen

/-! ### The start of a turn -/

/-- The datetime context is given once in a session. -/
def maybeAppendDatetime (env : TurnEnv) (date : Bytes) (w : TurnWorker) : TurnWorker :=
  if w.datetimeInjected then w
  else
    { w.append env .system (str "Current local date and time at session start: " ++ date ++
        str ". Use this only when date or time matters.") with datetimeInjected := true }

def resetSage (w : TurnWorker) : TurnWorker :=
  { w with sage := { w.sage with turn := .fresh, finalMarkdown := none } }

def resetGuards (w : TurnWorker) : TurnWorker :=
  { w with
    consecutiveEmpty := 0
    consecutiveIdentical := 0
    consecutiveMalformed := 0
    ringPos := 0
    sage := { w.sage with consecutiveRounds := 0, totalCalls := 0, turnStart := 0 } }

/-- The part of `worker_run_turn` in front of its loop. -/
def beginTurn (env : TurnEnv) (user date : Bytes) (r : Rebuild) (w : TurnWorker) : Next :=
  match compactIfNeeded env r (resetSage w) with
  | (w, false) => .returned (compactionFailed r) w
  | (w, true) => .head (resetGuards ((maybeAppendDatetime env date w).append env .user user))

/-! ### The head of a round -/

inductive SyncResult where
  | ok | interrupted | failed
deriving DecidableEq

/-- The locals of one round. The output of the round is deferred when it has a buffer. -/
structure Locals (σ : Type) where
  stream : σ
  deferred : Option Bytes
  generated : ℕ
  maxTokens : ℕ
  genText : Bytes
  repDetector : RepetitionDetector
  gotTool : Bool
  malformed : Bool
  early : Bool
  degenerate : Bool

def tooManyRounds : Bytes :=
  str "Tool error: too many tool rounds without finishing. " ++
    str "The model may be looping. Stop reading. Produce a partial analysis now using:\n" ++
    str "[OBSERVATION]\n[COMPRESSED]\n[TARGET_SELECTED]\n" ++ str "[VERDICT] GO / STOP / RETEST\n"

/-- The tokens a round may generate. -/
def roundTokens (env : TurnEnv) (w : TurnWorker) : ℤ :=
  let room : ℤ := env.base.ctxSize - w.core.transcript.length
  if room ≤ 1 then 0 else min env.nPredict (room - 1)

variable {σ : Type}

def startRound (env : TurnEnv) (sm : Stream σ) (w : TurnWorker) (maxTokens : ℕ) : Locals σ where
  stream := sm.start env.think
  deferred := if w.sage.turn.used ∧ ¬ w.sage.turn.canFinalize then some [] else none
  generated := 0
  maxTokens := maxTokens
  genText := []
  repDetector := .init
  gotTool := false
  malformed := false
  early := false
  degenerate := false

def contextFull (env : TurnEnv) (w : TurnWorker) : Bytes :=
  str "Contesto pieno (" ++ str (toString w.core.transcript.length) ++ str "/" ++
    str (toString env.base.ctxSize) ++ str " token): impossibile generare. " ++
    str "Apri una nuova sessione o usa /strip."

/-- The transcript that is read in front of the generation. -/
def openRound (env : TurnEnv) (w : TurnWorker) : TurnWorker :=
  (maybeAppendReminder env w).appendAssistantPrefix env

/-- `ds4_session_sync` refuses a transcript that fills the context, whatever else happens. -/
def syncTranscript (env : TurnEnv) (w : TurnWorker) (sync : SyncResult) : SyncResult :=
  if w.core.transcript = [] ∨ env.base.ctxSize ≤ w.core.transcript.length then .failed else sync

/-- Compaction is only due in front of a continuation. -/
def continueRound (env : TurnEnv) (toolRound : ℕ) (r : Rebuild) (w : TurnWorker) :
    TurnWorker × Bool :=
  if 0 < toolRound then compactIfNeeded env r w else (w, true)

/-- From the head of the loop to the first sampled token. -/
def roundHead (env : TurnEnv) (sm : Stream σ) (toolRound : ℕ) (r : Rebuild) (sync : SyncResult)
    (w : TurnWorker) : Except Next (TurnWorker × Locals σ) :=
  if env.maxToolRounds ≤ toolRound then
    .error (.returned 0 (w.append env .tool tooManyRounds))
  else
    match continueRound env toolRound r w with
    | (w, false) => .error (.returned (compactionFailed r) w)
    | (w, true) =>
        let w := openRound env w
        match syncTranscript env w sync with
        | .interrupted =>
            .error (.returned 0 ((w.publish [.status
              (str "Model reading interrupted; the model may only be aware of the prefix " ++
                str "processed so far.")]).pushEos env))
        | .failed => .error (.returned 1 w)
        | .ok =>
            if roundTokens env w ≤ 0 then
              .error (.returned 0 (w.publish [.status (contextFull env w)]))
            else .ok (w, startRound env sm w (roundTokens env w).toNat)

/-! ### Sampling -/

/-- What the renderer writes is published, or kept back in the buffer of the round. -/
def rendererWrites (w : TurnWorker) (deferred : Option Bytes) (writes : List Bytes) :
    TurnWorker × Option Bytes :=
  match deferred with
  | some buffer => (w, some (buffer ++ writes.flatten))
  | none => (w.publish (writes.map .rendered), none)

/-- `worker_accept_generated_token`, once the token is evaluated. -/
def acceptToken (env : TurnEnv) (sm : Stream σ) (token : ℤ) (w : TurnWorker) (l : Locals σ) :
    TurnWorker × Locals σ :=
  let w := w.push [token] (.token token)
  let (stream, writes) := sm.text l.stream (tokenText env.base.vocab token)
  let (w, deferred) := rendererWrites w l.deferred writes
  (w, { l with stream := stream, deferred := deferred, generated := l.generated + 1 })

def forcedTokens (env : TurnEnv) : List ℤ := bpeTokenizeText env.base.vocab (str "[upto]\n")

/-- The loop of `worker_force_generated_text`; an evaluation may fail at any token. -/
def forceTokens (env : TurnEnv) (sm : Stream σ) (evalOk : ℕ → Bool) :
    ℕ → List ℤ → TurnWorker → Locals σ → Except Next (TurnWorker × Locals σ)
  | _, [], w, l => .ok (w, l)
  | i, token :: rest, w, l =>
      if evalOk i then
        let (w, l) := acceptToken env sm token w l
        forceTokens env sm evalOk (i + 1) rest w l
      else .error (.returned 1 w)

/-- `worker_force_generated_text`; a single token is evaluated in the same way. -/
def generate (env : TurnEnv) (sm : Stream σ) (evalOk : ℕ → Bool) (tokens : List ℤ)
    (w : TurnWorker) (l : Locals σ) : Except Next (TurnWorker × Locals σ) :=
  if l.maxTokens - l.generated < tokens.length then .error (.returned 1 w)
  else forceTokens env sm evalOk 0 tokens w l

def agentRepMinCycles : ℕ := 5

/-- Why the loop stops behind an accepted token, if it does. -/
def stopFlags (sm : Stream σ) (l : Locals σ) : Locals σ × Bool :=
  if sm.dsmlState l.stream = .done then ({ l with gotTool := true }, true)
  else if (sm.preflightError l.stream).isSome then ({ l with early := true }, true)
  else if sm.dsmlState l.stream = .error then ({ l with malformed := true }, true)
  else if sm.dsmlInThink l.stream then ({ l with malformed := true }, true)
  else (l, false)

/-- One pass of the decode loop: the sampled token, whether the user has interrupted, and
which evaluations succeed. -/
def sampleStep (env : TurnEnv) (sm : Stream σ) (interrupt : Bool) (token : ℤ)
    (evalOk : ℕ → Bool) (w : TurnWorker) (l : Locals σ) :
    Except Next (TurnWorker × Locals σ × Bool) :=
  if l.maxTokens ≤ l.generated ∨ interrupt then .ok (w, l, true)
  else if token = env.base.vocab.eosId then .ok (w, l, true)
  else
    let text := tokenText env.base.vocab token
    let searching := sm.dsmlState l.stream = .search ∧ ¬ sm.dsmlActive l.stream
    let (repDetector, cycles) := if searching then l.repDetector.feed text else (l.repDetector, 0)
    let l := { l with repDetector := repDetector }
    if agentRepMinCycles ≤ cycles then
      .ok (w, { l with degenerate := true }, true)
    else do
      let (stream, replaced) := sm.offer l.stream text
      let l := { l with stream := stream }
      let (w, l) ←
        if replaced then generate env sm evalOk (forcedTokens env) w l
        else generate env sm evalOk [token] w { l with genText := l.genText ++ text }
      let (l, stop) := stopFlags sm l
      pure (w, l, stop)

/-! ### The end of a round -/

structure Verdict where
  gotTool : Bool
  malformed : Bool
  early : Bool
  degenerate : Bool
  error : Bytes
  preflight : Bytes
  calls : List ToolCall
  genText : Bytes
  truncated : Bool

def Verdict.plain (v : Verdict) : Bool := !v.gotTool && !v.malformed && !v.early && !v.degenerate

def thinkError : Bytes :=
  str "tool calling is not allowed inside <think></think>. " ++
    str "You MUST explicitly write </think> BEFORE writing " ++ str "<｜DSML｜tool_calls>"

/-- What the parser has found by the end of the round. -/
def verdict (env : TurnEnv) (sm : Stream σ) (l : Locals σ) (stream : σ) : Verdict :=
  let truncated : Bool := l.maxTokens ≤ l.generated ∧ (l.maxTokens : ℤ) < env.nPredict
  let v : Verdict :=
    { gotTool := l.gotTool
      malformed := l.malformed
      early := l.early
      degenerate := l.degenerate
      error := sm.error stream
      preflight := (sm.preflightError stream).getD []
      calls := sm.calls stream
      genText := l.genText
      truncated := truncated }
  if sm.dsmlInThink stream then
    { v with gotTool := false, malformed := true, early := false, error := thinkError }
  else if ¬ v.malformed ∧ sm.dsmlState stream = .error then { v with malformed := true }
  else if ¬ v.gotTool ∧ ¬ v.malformed ∧ ¬ v.early ∧
      (sm.dsmlState stream = .structural ∨ sm.dsmlState stream = .paramValue) then
    { v with
      malformed := true
      error :=
        if truncated then
          str "incomplete DSML tool call — context exhausted " ++
            str "mid-call; emit a shorter call or answer with what " ++ str "you have"
        else str "incomplete DSML tool call" }
  else v

/-- What happens from the end of the generation to the next round. -/
structure Finish where
  interrupted : Bool
  toolResult : ℕ → Bytes
  sage : SageWorld
  compressed : Option Bytes
  rebuild : Rebuild
  now : ℚ
  userContinues : Bool
  stopRequested : Bool
  queuedUser : Option Bytes

/-- Model prose is no answer once the mathematical tool has been used. -/
def sageBlock (env : TurnEnv) (v : Verdict) (w : TurnWorker) : Except Next TurnWorker :=
  if v.plain ∧ w.sage.turn.used ∧ ¬ w.sage.turn.canFinalize then
    let turn := w.sage.turn.block
    if turn.finalizationBlockCount = 1 ∧ turn.state ≠ .failed then
      .error (.head (((w.setTurn turn).recordToolResult env
        (str "SAGE_FINALIZATION_BLOCKED: complete the allowed next Sage phase.\n")).note
          .continued))
    else
      .error (.returned 0 (((w.setTurn (turn.fail (str "SAGE_FINALIZATION_BLOCKED"))
        ).recordToolResult env
          (str "SAGE_FINALIZATION_BLOCKED: authoritative validation was not completed.\n")).publish
        [.status (str "SAGE_FINALIZATION_BLOCKED: no unvalidated mathematical answer was " ++
          str "published.")]))
  else .ok w

def fakeMarkers : List Bytes :=
  [str "<search_results>", str "</search_results>", str "<crawl_results>",
    str "</crawl_results>", str "<tool_results>", str "</tool_results>"]

def isFabricatedResult (text : Bytes) : Bool := fakeMarkers.any fun m => m <:+: cstr text

def defensePhrases : List Bytes :=
  [str "I did search", str "i did search", str "the block shows", str "the search results show",
    str "as proof", str "prova che ho cercato", str "ho cercato", str "la ricerca ha prodotto",
    str "sostengo di aver", str "continuo a sostenere"]

def isDefensiveText (text : Bytes) : Bool := defensePhrases.any fun m => m <:+: cstr text

def simulatedResult : Bytes :=
  str "Tool error: simulated result detected — you wrote " ++
    str "<search_results>, <crawl_results> or <tool_results> " ++
    str "without executing a real tool call. Do not simulate " ++
    str "tool output. Use the proper DSML syntax to invoke the " ++
    str "tool, then report its real result.\n"

def defensiveLoop : Bytes :=
  str "Tool error: loop detected — repeated defensive responses " ++
    str "without admitting the error. Stop defending and answer " ++
    str "directly with what was learned so far:\n" ++
    str "[OBSERVATION] what was learned\n" ++ str "[COMPRESSED] <= 10 lines\n" ++
    str "[TARGET_SELECTED] the single next thing to try\n" ++
    str "[VERDICT] GO / STOP / RETEST\n"

/-- A plain answer ends the turn. A simulated result is reported and goes on to the tools,
where the source also frees the buffer of the text a second time. -/
def proseCheck (env : TurnEnv) (v : Verdict) (w : TurnWorker) : Except Next TurnWorker :=
  if v.plain then
    if isFabricatedResult v.genText then
      .ok ({ w with consecutiveDefensive := w.consecutiveDefensive + 1 }.append env .tool
        simulatedResult)
    else if isDefensiveText v.genText ∧ 3 ≤ w.consecutiveDefensive then
      .error (.returned 0 ((w.publish [.status
        (str "Loop guard: difesa ripetuta senza ammissione — arresto.")]).append env .tool
          defensiveLoop))
    else
      .error (.returned 0 ({ w with
          consecutiveDefensive :=
            if isDefensiveText v.genText then w.consecutiveDefensive + 1 else 0
        }.publish (if v.truncated then [.status
          (str "Risposta troncata: contesto esaurito. Apri una nuova " ++
            str "sessione o usa /strip.")] else [])))
  else .ok w

/-! ### Tool calls -/

def sageName : Bytes := str "sage"

structure Executed where
  sage : Sage
  events : List Event
  text : Bytes

/-- `agent_execute_tool_call`; what the other tools answer is given. -/
def executeToolCall (cfg : SageConfig) (f : Finish) (i : ℕ) (call : ToolCall) (s : Sage) :
    Executed :=
  if call.name = some sageName then
    let c := toolSageViaHttp cfg call f.sage s
    ⟨c.sage, c.events, c.text⟩
  else ⟨s, [], f.toolResult i⟩

def resultHeader (i : ℕ) (call : ToolCall) : Bytes :=
  (str "Tool result " ++ str (toString (i + 1)) ++ str " (" ++
    call.name.getD (str "unknown") ++ str "):\n").take 127

/-- The loop of `agent_execute_tool_calls`. -/
def executeLoop (cfg : SageConfig) (f : Finish) : ℕ → List ToolCall → Executed → Executed
  | _, [], e => e
  | i, call :: rest, e =>
      let c := executeToolCall cfg f i call e.sage
      let newline := match c.text.getLast? with
        | none | some 0x0a => []
        | some _ => [0x0a]
      executeLoop cfg f (i + 1) rest
        ⟨c.sage, e.events ++ c.events, e.text ++ resultHeader i call ++ c.text ++ newline⟩

def executeToolCalls (cfg : SageConfig) (f : Finish) (calls : List ToolCall) (s : Sage) :
    Executed :=
  if calls.any (·.name = some sageName) ∧ calls.length ≠ 1 then
    ⟨s, [], str "Tool error: SAGE_MIXED_TOOL_BLOCK_FORBIDDEN\n"⟩
  else
    let e := executeLoop cfg f 0 calls ⟨s, [], []⟩
    if calls = [] then { e with text := e.text ++ str "Tool error: empty tool call block\n" }
    else e

def degenerateResult : Bytes :=
  str "Tool error: generation aborted — the text degenerated into " ++
    str "repeating the same lines. Do not restate previous sentences; " ++
    str "answer directly with what was learned so far, or make ONE " ++
    str "different tool call.\n"

/-- The result of the round: an error, or what the tools answer. -/
def roundResult (env : TurnEnv) (f : Finish) (v : Verdict) (w : TurnWorker) : TurnWorker × Bytes :=
  let failed := { w with consecutiveMalformed := w.consecutiveMalformed + 1 }
  if v.early then
    (failed, str "Tool error: " ++
      (if v.preflight = [] then str "edit old selector failed before new was generated"
        else v.preflight) ++ str "\n")
  else if v.degenerate then
    (failed.publish [.status (str "Loop guard: ripetizione degenerativa — round interrotto, " ++
      str "il modello riprova.")], degenerateResult)
  else if v.malformed then
    (failed, str "Tool error: invalid DSML tool call: " ++
      (if v.error = [] then str "parse error" else v.error) ++ str "\n" ++
      env.dsmlSyntaxReminder)
  else
    let e := executeToolCalls env.sage f v.calls w.sage
    ((({ w with sage := e.sage, consecutiveMalformed := 0 }.publish e.events).note
      (.executed e.text f.compressed)), e.text)

def agentToolResultReserveTokens : ℕ := 1024

def projectedTokens (env : TurnEnv) (w : Worker) (result : Bytes) : ℕ :=
  w.transcript.length + (chatAppendMessage env.base.vocab .tool result).length

/-- `agent_tool_result_fits_context` -/
def fitsContext (env : TurnEnv) (w : Worker) (result : Bytes) (reserve : ℕ) : Bool :=
  projectedTokens env w result + reserve < env.base.ctxSize

def doesNotFit (projected ctx : ℕ) : Bytes :=
  (str "Tool error: tool result still does not fit after context compaction " ++
    str "(projected_prompt=" ++ str (toString projected) ++ str " tokens, ctx=" ++
    str (toString ctx) ++ str ", reserve=" ++ str (toString agentToolResultReserveTokens) ++
    str "). " ++ str "Retry with a smaller read/search/bash output.\n").take 255

/-- The result is recorded, after a compaction where it does not fit. -/
def recordResult (env : TurnEnv) (f : Finish) (result : Bytes) (w : TurnWorker) :
    Except Next (TurnWorker × Bytes) :=
  let text := f.compressed.getD result
  if fitsContext env w.core text agentToolResultReserveTokens then
    .ok (w.recordToolResult env text, text)
  else
    match compactWorker env f.rebuild w with
    | (w, false) => .error (.returned (compactionFailed f.rebuild) w)
    | (w, true) =>
        if fitsContext env w.core text agentToolResultReserveTokens then
          .ok (w.recordToolResult env text, text)
        else
          let text := doesNotFit (projectedTokens env w.core text) env.base.ctxSize
          if fitsContext env w.core text 16 then .ok (w.recordToolResult env text, text)
          else .error (.returned 1 w)

/-! ### Guards -/

def sageLoopReason (s : Sage) (now : ℚ) : Option Bytes :=
  if 4 ≤ s.consecutiveRounds then some (str "too many consecutive Sage calls (>=4)")
  else if 5 ≤ s.totalCalls then some (str "too many total Sage calls (>=5)")
  else if 0 < s.turnStart ∧ 120 ≤ now - s.turnStart then
    some (str "Sage turn exceeded 120s time limit")
  else none

/-- One more call is counted, from the start of the first one on. -/
def Sage.counted (s : Sage) (now : ℚ) : Sage :=
  { s with
    consecutiveRounds := s.consecutiveRounds + 1
    totalCalls := s.totalCalls + 1
    turnStart := if s.turnStart ≤ 0 then now else s.turnStart }

def sageGuard (env : TurnEnv) (f : Finish) (v : Verdict) (w : TurnWorker) :
    Except Next TurnWorker :=
  if (v.calls.head?.bind ToolCall.name) = some sageName then
    let w := { w with sage := w.sage.counted f.now }
    match sageLoopReason w.sage f.now with
    | some reason =>
        .error (.returned 0 ((w.publish
          [.status (str "Sage loop guard: limit exceeded — arresto.")]).append env .tool
            (str "FINAL: sage loop detected — " ++ reason ++
              str ". DO NOT call sage again. Produce your best analysis now using the " ++
              str "results already obtained.\n")))
    | none => .ok w
  else .ok { w with sage := { w.sage with consecutiveRounds := 0 } }

/-- `agent_sage_publish_authoritative_final` -/
def publishFinal (env : TurnEnv) (w : TurnWorker) : Except Next TurnWorker :=
  match w.sage.finalMarkdown with
  | none | some [] => .ok w
  | some markdown =>
      if w.sage.turn.canFinalize then
        .error (.returned 0 ((w.append env .assistant markdown).publish [.final markdown]))
      else .ok w

def malformedLoop : Bytes :=
  str "Tool error: loop detected — repeated malformed tool calls without progress. " ++
    str "Stop calling tools and answer directly using:\n" ++
    str "[OBSERVATION] what was learned so far\n" ++ str "[COMPRESSED] <= 10 lines\n" ++
    str "[TARGET_SELECTED] the single next thing to try, if any\n" ++
    str "[VERDICT] GO / STOP / RETEST\n"

def malformedGuard (env : TurnEnv) (w : TurnWorker) : Except Next TurnWorker :=
  if 4 ≤ w.consecutiveMalformed then
    .error (.returned 0 ((w.publish [.status (str "Loop guard: malformed tool calls ripetuti " ++
      str "senza progresso — arresto.")]).append env .tool malformedLoop))
  else .ok w

def agentLoopGuardRingSize : ℕ := 8
def agentLoopGuardFingerprintSize : ℕ := 128
def agentLoopGuardIdenticalLimit : ℕ := 4
def agentLoopGuardEmptyLimit : ℕ := 10

/-- `agent_loop_guard_record` -/
def loopGuardRecord (w : TurnWorker) (fingerprint : Bytes) : TurnWorker :=
  let pos := w.ringPos % agentLoopGuardRingSize
  let previous := (pos + agentLoopGuardRingSize - 1) % agentLoopGuardRingSize
  let same := 0 < w.ringPos ∧ w.ring previous ≠ [] ∧ w.ring previous = fingerprint
  { w with
    consecutiveIdentical := if same then min (w.consecutiveIdentical + 1) (2 ^ 31 - 1) else 1
    ring := Function.update w.ring pos (fingerprint.take (agentLoopGuardFingerprintSize - 1))
    ringPos := w.ringPos + 1 }

def progressMarkers : List Bytes :=
  [str "READ_BATCH_SUMMARY_REQUIRED", str "DOC_READ_SUMMARY_REQUIRED",
    str "RAW_DOC_CONTEXT_SUMMARY_REQUIRED", str "[OBSERVATION]", str "[COMPRESSED]",
    str "[TARGET_SELECTED]", str "[VERDICT]"]

def isProgressGuidance (result : Bytes) : Bool := progressMarkers.any fun m => m <:+: result

/-- A call without a fingerprint breaks a run of identical calls. -/
def countIdentical (call : ToolCall) (w : TurnWorker) : TurnWorker :=
  match fingerprintCall call with
  | some fingerprint => loopGuardRecord w fingerprint
  | none => { w with consecutiveIdentical := 0 }

/-- The counters of repeated and of empty results. -/
def countCalls (call : ToolCall) (result : Bytes) (w : TurnWorker) : TurnWorker :=
  let w := countIdentical call w
  if isProgressGuidance result then { w with consecutiveEmpty := 0, consecutiveIdentical := 0 }
  else if result.length < 16 then { w with consecutiveEmpty := w.consecutiveEmpty + 1 }
  else { w with consecutiveEmpty := 0 }

def loopDetected (w : TurnWorker) : Bytes :=
  str "Tool error: loop detected — " ++
    if agentLoopGuardEmptyLimit ≤ w.consecutiveEmpty then str "tool results are empty. "
    else str "identical commands repeat without progress. "

def stopReading : Bytes :=
  str "Stop reading. Produce a partial analysis now using:\n" ++
    str "[OBSERVATION] what was learned so far\n" ++ str "[COMPRESSED] <= 10 lines\n" ++
    str "[TARGET_SELECTED] the single next thing to try, if any\n" ++
    str "[VERDICT] GO / STOP / RETEST\n"

/-- A loop of calls stops the turn, unless the user lets it go on. -/
def callGuard (env : TurnEnv) (f : Finish) (v : Verdict) (result : Bytes) (w : TurnWorker) :
    Except Next TurnWorker :=
  match v.calls with
  | [] => .ok w
  | call :: _ =>
      let w := countCalls call result w
      if agentLoopGuardEmptyLimit ≤ w.consecutiveEmpty ∨
          agentLoopGuardIdenticalLimit ≤ w.consecutiveIdentical then
        if env.nonInteractive then
          .error (.returned 0 ((w.publish [.status (str "Loop guard: " ++
            (if agentLoopGuardEmptyLimit ≤ w.consecutiveEmpty then str "tool results are empty"
              else str "identical commands repeat without progress") ++
            str " — arresto.\n")]).append env .tool (loopDetected w ++ stopReading)))
        else if f.userContinues ∧ ¬ f.stopRequested then
          .ok ((resetGuards w).publish
            [.status (str "\n[loop-guard] User chose to continue, resetting guard.\n")])
        else
          .error (.returned 0 ((w.publish [.status (str "Loop guard: tool calls ripetuti " ++
            str "senza progresso — arresto.")]).append env .tool
              (loopDetected w ++
                if f.userContinues then [] else str "User interrupted.\n")))
      else .ok w

/-- The prompt the user typed meanwhile. -/
def drainQueuedUser (env : TurnEnv) (queued : Option Bytes) (w : TurnWorker) : TurnWorker :=
  match queued with
  | none | some [] => w
  | some text => w.append env .user text

/-! ### The turn -/

/-- From the end of the message on, in the order of the source. -/
def afterMessage (env : TurnEnv) (f : Finish) (v : Verdict) (w : TurnWorker) :
    Except Next TurnWorker := do
  let w ← sageBlock env v w
  let w ← proseCheck env v w
  let result := roundResult env f v w
  let recorded ← recordResult env f result.2 result.1
  let w ← sageGuard env f v recorded.1
  let w ← publishFinal env w
  let w ← malformedGuard env w
  let w ← callGuard env f v recorded.2 w
  pure (drainQueuedUser env f.queuedUser (w.note .continued))

/-- From the end of the generation to the next round or the end of the turn. The buffer of
a deferred round is dropped. -/
def roundEnd (env : TurnEnv) (sm : Stream σ) (f : Finish) (l : Locals σ) (w : TurnWorker) : Next :=
  let (stream, writes) := sm.finish l.stream
  let w := (rendererWrites w l.deferred writes).1
  if f.interrupted then
    .returned 0 ((w.pushEos env).publish [.status (str "Stopped by user")])
  else
    match afterMessage env f (verdict env sm l stream) (w.pushEos env) with
    | .ok w => .head w
    | .error next => next

inductive Control (σ : Type) where
  | idle
  | head (toolRound : ℕ)
  | decode (toolRound : ℕ) (l : Locals σ)
  | ended (toolRound : ℕ) (l : Locals σ)
  | returned (rc : ℤ)

/-- What the world does next. -/
inductive Input where
  | begin (user date : Bytes) (r : Rebuild)
  | round (r : Rebuild) (sync : SyncResult)
  | sample (interrupt : Bool) (token : ℤ) (evalOk : ℕ → Bool)
  | finish (f : Finish)

structure TurnState (σ : Type) where
  control : Control σ
  worker : TurnWorker

def leave (toolRound : ℕ) : Next → TurnState σ
  | .head w => ⟨.head toolRound, w⟩
  | .returned rc w => ⟨.returned rc, w⟩

/-- `worker_run_turn`, one stretch at a time. -/
def turnStep (env : TurnEnv) (sm : Stream σ) (st : TurnState σ) (input : Input) : TurnState σ :=
  match st.control, input with
  | .idle, .begin user date r => leave 0 (beginTurn env user date r st.worker)
  | .head toolRound, .round r sync =>
      match roundHead env sm toolRound r sync st.worker with
      | .ok (w, l) => ⟨.decode toolRound l, w⟩
      | .error next => leave toolRound next
  | .decode toolRound l, .sample interrupt token evalOk =>
      match sampleStep env sm interrupt token evalOk st.worker l with
      | .ok (w, l, stop) => ⟨if stop then .ended toolRound l else .decode toolRound l, w⟩
      | .error next => leave toolRound next
  | .ended toolRound l, .finish f => leave (toolRound + 1) (roundEnd env sm f l st.worker)
  | _, _ => st

end Ds4Studio.Agent
