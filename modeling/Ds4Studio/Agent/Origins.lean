import Ds4Studio.Agent.Spans
import Ds4Studio.Tokenizer.PlainText

/-!
Control tokens and plain text in a transcript. The agent appends control tokens for the
structure of messages and from its own prompts, the model samples them, and all other
text is plain. A session that is stripped and loaded again is tokenized from its rendered
text, where plain text may spell control tokens.
-/

namespace Ds4Studio.Agent

open Bytes Segment Tokenizer Weave

/-! ### Prompts -/

/-- What does not change while the program runs: the built-in tool prompt and the prefix
for maximal reasoning effort. -/
structure Prompts where
  toolsPrompt : Bytes
  maxEffortPrefix : Bytes

/-- What a session is started with. -/
structure Setup where
  maxEffort : Bool
  cwd : Bytes
  extra : Bytes

def agentConductRules : Bytes :=
  str "# Operating rules\n" ++
  str "1. If the filesystem holds more than one copy/clone of the project: " ++
  str "stop, list them and ask the user which one is canonical. Never " ++
  str "proceed on a guess like \"it seems to be this one\".\n" ++
  str "2. Propose fixes bottom-up and stop at the first sufficient rung: " ++
  str "(1) native platform feature (CSS, DB constraint, stdlib); (2) code " ++
  str "already in the project; (3) a few new dependency-free lines; " ++
  str "(4) refactoring; (5) new dependency, only if 1-4 are provably " ++
  str "insufficient, and say why. State the cost of a change next to its " ++
  str "benefit.\n" ++
  str "3. Any causal or performance claim must cite file:line and the exact " ++
  str "mechanism. Before claiming a cost, check it is not already removed " ++
  str "by a fix you listed as present in the same answer; without evidence, " ++
  str "label the claim a hypothesis.\n" ++
  str "4. High-volume commands: start with git diff --stat / git log " ++
  str "--oneline; ask for full diffs only on specific paths. Never bare " ++
  str "git diff on a large repo.\n"

def workspaceStart : Bytes := agentConductRules ++ str "Workspace: "

def workspaceEnd : Bytes :=
  str "\nThis is the project you are working on. Do not search " ++
  str "the filesystem for other copies of it.\n"

/-- `agent_build_conduct_note`; the path is empty where `getcwd` fails. -/
def agentBuildConductNote (cwd : Bytes) : Bytes :=
  if cwd = [] then agentConductRules else workspaceStart ++ cwd ++ workspaceEnd

def agentDsmlSyntaxReminder : Bytes :=
  str "DSML syntax reminder:\n" ++
  str "CRITICAL FOR REASONING MODELS: If you use <think> tags, you MUST close them with " ++
  str "</think> BEFORE starting tool calls.\n" ++
  str "<｜DSML｜tool_calls>\n" ++
  str "<｜DSML｜invoke name=\"$TOOL_NAME\">\n" ++
  str "<｜DSML｜parameter name=\"$PARAMETER_NAME\" string=\"true|false\">" ++
  str "$PARAMETER_VALUE</｜DSML｜parameter>\n" ++
  str "</｜DSML｜invoke>\n" ++
  str "</｜DSML｜tool_calls>\n"

def recitation : Bytes :=
  str "Before continuing, restate in 3 lines: (1) the current task " ++
  str "goal, (2) what is already done, (3) the single next step. Do " ++
  str "not re-investigate anything you list as done.\n"

def agentBuildSystemPromptReminder (cwd : Bytes) : Bytes :=
  str "\n\n[System prompt reminder follows.]\n" ++ agentDsmlSyntaxReminder ++
    agentBuildConductNote cwd ++ recitation ++ str "[End system prompt reminder.]\n\n"

/-- What `agent_append_system_prompt` appends. -/
def agentAppendSystemPrompt (v : Vocab) (prompts : Prompts) (cwd extra : Bytes) : List ℤ :=
  tokenizeRenderedChat v prompts.toolsPrompt ++
    chatAppendMessage v .system (agentBuildConductNote cwd) ++
    if extra = [] then [] else chatAppendMessage v .system (str "\n\n" ++ extra)

def buildSystemTokens (v : Vocab) (prompts : Prompts) (setup : Setup) : List ℤ :=
  v.bosId :: (if setup.maxEffort then bpeTokenizeText v prompts.maxEffortPrefix else []) ++
    agentAppendSystemPrompt v prompts setup.cwd setup.extra

/-! ### Operations -/

/-- What is appended outside of tool results and reminders. -/
inductive Piece where
  | message (role : Role) (content : Bytes)
  | assistantPrefix (think : Bool)
  | sampled (token : ℤ)
  | eos
  /-- `worker_force_generated_text`, which may stop early. -/
  | forced (text : Bytes) (accepted : ℕ)
  /-- The reminder of the additional system instructions. -/
  | extraReminder (extra : Bytes)

def Piece.tokens (v : Vocab) : Piece → List ℤ
  | .message role content => chatAppendMessage v role content
  | .assistantPrefix think => chatAppendAssistantPrefix v think
  | .sampled token => [token]
  | .eos => [v.eosId]
  | .forced text accepted => (bpeTokenizeText v text).take accepted
  | .extraReminder extra =>
      bpeTokenizeText v (str "\nAdditional system instructions reminder:\n") ++
        bpeTokenizeText v extra ++
        bpeTokenizeText v (str "\n[End additional system instructions reminder.]\n\n")

/-- A session file: its rendered text, and its tokens unless it is stripped. -/
structure SessionFile where
  text : Bytes
  payload : Option (List ℤ)

structure AgentState where
  worker : Worker
  /-- The tokens of `sysprompt.kv`. -/
  sysprompt : Option (List ℤ)
  sessions : Bytes → Option SessionFile

/-- The operations that succeed; one that fails leaves the transcript and the files. -/
inductive Op where
  | append (piece : Piece)
  | toolResult (text : Bytes)
  | reminder (cwd : Bytes)
  | evict (writes : ℕ → Bool) (synced : Bool) (cwd : Bytes)
  | compact (setup : Setup) (summary : Option Bytes) (synced : Bool) (bashUpdate : Option Bytes)
  | reset (setup : Setup) (loads stores : Bool)
  | save (name : Bytes)
  | strip (name : Bytes)
  | switch (name : Bytes)

/-- The tokens `agent_kv_load_path` leaves in the session. -/
def agentKvLoadPath (v : Vocab) (file : SessionFile) : List ℤ :=
  file.payload.getD (tokenizeRenderedChat v (cstr file.text))

/-- The saved system prompt is used if its text is still that of the prompt. -/
def syspromptHit (v : Vocab) (sys : List ℤ) (loads : Bool) (saved : List ℤ) : Bool :=
  loads && tokensText v saved = tokensText v sys

def AgentState.act (env : Env) (prompts : Prompts) (s : AgentState) : Op → AgentState
  | .append piece => { s with worker := s.worker.append (piece.tokens env.vocab) }
  | .toolResult text => { s with worker := appendToolResult env s.worker text }
  | .reminder cwd =>
      { s with
        worker := s.worker.append
          (tokenizeRenderedChat env.vocab (agentBuildSystemPromptReminder cwd)) }
  | .evict writes synced cwd =>
      { s with
        worker := step env s.worker (.evict writes synced (agentBuildSystemPromptReminder cwd)) }
  | .compact setup summary synced bashUpdate =>
      { s with
        worker := compact env (buildSystemTokens env.vocab prompts setup) summary synced
          bashUpdate s.worker }
  | .reset setup loads stores =>
      let sys := buildSystemTokens env.vocab prompts setup
      let loaded := s.sysprompt.filter (syspromptHit env.vocab sys loads)
      { s with
        worker := resetToSysprompt sys loaded s.worker
        sysprompt := if loaded.isNone ∧ stores then some sys else s.sysprompt }
  | .save name =>
      { s with
        sessions := Function.update s.sessions name
          (some ⟨tokensText env.vocab s.worker.transcript, some s.worker.transcript⟩) }
  | .strip name =>
      { s with
        sessions := Function.update s.sessions name
          ((s.sessions name).map fun file => { file with payload := none }) }
  | .switch name =>
      { s with
        worker := switchSession ((s.sessions name).map (agentKvLoadPath env.vocab)) s.worker }

/-! ### Origins -/

/-- A token is plain text, or the agent's own (the structure of a message, or a prompt of
the agent) or the model's. -/
inductive Origin where
  | text | own
deriving DecidableEq

abbrev Marked := List (ℤ × Origin)

def mark (origin : Origin) (tokens : List ℤ) : Marked := tokens.map (·, origin)

def Marked.tokens (m : Marked) : List ℤ := m.map Prod.fst

def Marked.own (m : Marked) : List ℤ := Marked.tokens (m.filter (·.2 = .own))

def markedText (v : Vocab) (text : Bytes) : Marked := mark .text (bpeTokenizeText v text)

def markedSegment (v : Vocab) : Bytes ⊕ (Bytes × ℤ) → Marked
  | .inl span => mark .text (tokenizeSpan v span)
  | .inr special => [(special.2, .own)]

/-- Letters as plain text, and control tokens as themselves. -/
def asWritten (v : Vocab) (a : List (UInt8 ⊕ (Bytes × ℤ))) : Marked :=
  (runs [] a).flatMap (markedSegment v)

/-- The letters and control tokens of a prompt of the agent. -/
def trusted (v : Vocab) (text : Bytes) : List (UInt8 ⊕ (Bytes × ℤ)) :=
  elements (split (specials v) [] text)

def markedToken (v : Vocab) (t : ℤ × Origin) : List (UInt8 ⊕ (Bytes × ℤ)) :=
  match t.2, (specials v).find? (·.2 = t.1) with
  | .own, some special => [.inr special]
  | _, _ => (tokenText v t.1).map .inl

/-- The letters and control tokens of a transcript. -/
def Marked.elements (v : Vocab) (m : Marked) : List (UInt8 ⊕ (Bytes × ℤ)) :=
  m.flatMap (markedToken v)

def markedMessage (v : Vocab) (role : Role) (content : Bytes) : Marked :=
  match role with
  | .system | .developer => markedText v content
  | .assistant =>
      mark .own (v.assistantId ::
        if ¬ thinkStart <+: content ∧ ¬ thinkEnd <+: content then [v.thinkEndId] else []) ++
        markedText v content
  | .tool | .function =>
      mark .own [v.userId] ++ (markedText v toolResultStart ++
        mark .text (bpeTokenizeToolResultText v content) ++ markedText v toolResultEnd)
  | .user => mark .own [v.userId] ++ markedText v content

def Piece.marked (v : Vocab) : Piece → Marked
  | .message role content => markedMessage v role content
  | .assistantPrefix think => mark .own (chatAppendAssistantPrefix v think)
  | .sampled token => [(token, .own)]
  | .eos => [(v.eosId, .own)]
  | .forced text accepted => (markedText v text).take accepted
  | .extraReminder extra => mark .text (Piece.tokens v (.extraReminder extra))

/-- A system prompt, whose note and additional instructions are plain text. -/
def markedSystem (v : Vocab) (prompts : Prompts) (setup : Setup) : Marked :=
  mark .own [v.bosId] ++
    (if setup.maxEffort then markedText v prompts.maxEffortPrefix else []) ++
    (asWritten v (trusted v prompts.toolsPrompt) ++
      markedMessage v .system (agentBuildConductNote setup.cwd) ++
      if setup.extra = [] then [] else markedMessage v .system (str "\n\n" ++ setup.extra))

/-- A reminder in front of the working directory, and behind it. -/
def reminderStart (cwd : Bytes) : Bytes :=
  str "\n\n[System prompt reminder follows.]\n" ++ agentDsmlSyntaxReminder ++
    if cwd = [] then agentConductRules else workspaceStart

def reminderEnd (cwd : Bytes) : Bytes :=
  (if cwd = [] then [] else workspaceEnd) ++ recitation ++ str "[End system prompt reminder.]\n\n"

/-- A reminder, in which the working directory is plain text. -/
def reminderElements (v : Vocab) (cwd : Bytes) : List (UInt8 ⊕ (Bytes × ℤ)) :=
  trusted v (reminderStart cwd) ++ cwd.map .inl ++ trusted v (reminderEnd cwd)

/-! #### Rebuilds of the transcript -/

def evictSpanMarks (env : Env) (m : Marked) (st : EvictState) (s : Span Bytes) (write : Bool)
    (compacted : Marked) : Marked :=
  compacted ++ range m st.pos s.start ++
    if (contextBlobPutText env.digest write s.text st.blobs).isSome then
      markedMessage env.vocab .tool (stub env.digest s.text)
    else range m s.start s.stop

def evictLoopMarks (env : Env) (m : Marked) (writes : ℕ → Bool) :
    ℕ → EvictState → Marked → List (Span Bytes) → Marked
  | _, _, compacted, [] => compacted
  | i, st, compacted, s :: spans =>
      evictLoopMarks env m writes (i + 1) (evictSpan env m.tokens st s (writes i))
        (evictSpanMarks env m st s (writes i) compacted) spans

/-- The state after the loop over the spans of an eviction. -/
def evicted (env : Env) (writes : ℕ → Bool) (w : Worker) : EvictState :=
  evictLoop env w.transcript writes 0 ⟨[], 0, 0, w.blobs⟩
    (w.toolSpans.take (w.toolSpans.length - agentEvictKeepRecent))

/-- Whether an eviction rebuilds the transcript, and appends a reminder. -/
def evicts (env : Env) (writes : ℕ → Bool) (synced : Bool) (w : Worker) : Bool :=
  shouldEvict env w && (evicted env writes w).evicted ≠ 0 && synced

def evictMarks (env : Env) (writes : ℕ → Bool) (synced : Bool) (cwd : Bytes) (w : Worker)
    (m : Marked) : Marked :=
  if evicts env writes synced w then
    evictLoopMarks env m writes 0 ⟨[], 0, 0, w.blobs⟩ []
        (w.toolSpans.take (w.toolSpans.length - agentEvictKeepRecent)) ++
      range m (evicted env writes w).pos m.length ++
      asWritten env.vocab (reminderElements env.vocab cwd)
  else m

def compactMarks (env : Env) (sys : Marked) (summary : Option Bytes) (synced : Bool)
    (bashUpdate : Option Bytes) (m : Marked) : Marked :=
  if m.length ≤ sys.length ∨ summary.getD [] = [] ∨ synced = false then m
  else
    sys ++ markedMessage env.vocab .system (summaryMessage (summary.getD [])) ++
      m.drop (compactTailStart env m.tokens sys.length) ++
      bashUpdate.elim [] (markedMessage env.vocab .tool)

/-! #### The origins of a run -/

/-- What the tokens of the transcript and of the files were appended as. -/
structure Origins where
  transcript : Marked
  sysprompt : Option Marked
  sessions : Bytes → Option Marked

/-- A stripped session has lost the borders of its tokens: letters are plain text, and
control tokens stay what they are. -/
def loadedMarks (v : Vocab) (file : SessionFile) (m : Marked) : Marked :=
  if file.payload.isSome then m else asWritten v (m.elements v)

def Origins.track (env : Env) (prompts : Prompts) (s : AgentState) (o : Origins) : Op → Origins
  | .append piece => { o with transcript := o.transcript ++ piece.marked env.vocab }
  | .toolResult text =>
      { o with transcript := o.transcript ++ markedMessage env.vocab .tool text }
  | .reminder cwd =>
      { o with
        transcript := o.transcript ++ asWritten env.vocab (reminderElements env.vocab cwd) }
  | .evict writes synced cwd =>
      { o with transcript := evictMarks env writes synced cwd s.worker o.transcript }
  | .compact setup summary synced bashUpdate =>
      { o with
        transcript := compactMarks env (markedSystem env.vocab prompts setup) summary synced
          bashUpdate o.transcript }
  | .reset setup loads stores =>
      let sys := markedSystem env.vocab prompts setup
      let loaded := o.sysprompt.filter fun m => syspromptHit env.vocab sys.tokens loads m.tokens
      { o with
        transcript := loaded.getD sys
        sysprompt := if loaded.isNone ∧ stores then some sys else o.sysprompt }
  | .save name => { o with sessions := Function.update o.sessions name (some o.transcript) }
  | .strip _ => o
  | .switch name =>
      { o with
        transcript := ((s.sessions name).bind fun file =>
          (o.sessions name).map (loadedMarks env.vocab file)).getD o.transcript }

structure System where
  agent : AgentState
  origins : Origins

def System.act (env : Env) (prompts : Prompts) (s : System) (op : Op) : System :=
  ⟨s.agent.act env prompts op, s.origins.track env prompts s.agent op⟩

def System.start (blobs : Blobs) : System :=
  ⟨⟨.start blobs, none, fun _ => none⟩, ⟨[], none, fun _ => none⟩⟩

/-- The condition on an operation. The working directory of a reminder spells no control
token. A stripped session is loaded if its text holds no zero byte and spells no control
token from a letter of plain text on. -/
def Unforged (env : Env) (s : System) : Op → Prop
  | .reminder cwd => ∀ spelling ∈ spellings, ¬ spelling <:+: cwd
  | .evict writes synced cwd =>
      evicts env writes synced s.agent.worker = true →
        ∀ spelling ∈ spellings, ¬ spelling <:+: cwd
  | .switch name =>
      ∀ file m, s.agent.sessions name = some file → file.payload = none →
        s.origins.sessions name = some m →
        0 ∉ file.text ∧ Unspelled (specials env.vocab) (m.elements env.vocab)
  | _ => True

/-! ### The marks are those of the tokens -/

@[simp] theorem tokens_append (m n : Marked) : (m ++ n).tokens = m.tokens ++ n.tokens :=
  List.map_append

@[simp] theorem tokens_nil : Marked.tokens [] = [] := rfl

@[simp] theorem tokens_mark (origin : Origin) (tokens : List ℤ) :
    (mark origin tokens).tokens = tokens := by
  simp [mark, Marked.tokens, Function.comp_def]

@[simp] theorem tokens_markedText (v : Vocab) (text : Bytes) :
    (markedText v text).tokens = bpeTokenizeText v text :=
  tokens_mark _ _

theorem tokens_markedMessage (v : Vocab) (role : Role) (content : Bytes) :
    (markedMessage v role content).tokens = chatAppendMessage v role content := by
  cases role <;> simp [markedMessage, chatAppendMessage]

theorem tokens_piece (v : Vocab) (piece : Piece) : (piece.marked v).tokens = piece.tokens v := by
  cases piece with
  | message role content => exact tokens_markedMessage v role content
  | assistantPrefix think => exact tokens_mark _ _
  | sampled token => rfl
  | eos => rfl
  | forced text accepted =>
    have htake := List.map_take (f := Prod.fst) (l := markedText v text) (i := accepted)
    exact htake.trans (congrArg (List.take accepted) (tokens_markedText v text))
  | extraReminder extra => exact tokens_mark _ _

theorem tokens_flatMap_markedSegment (v : Vocab) (segments : List (Bytes ⊕ (Bytes × ℤ))) :
    Marked.tokens (segments.flatMap (markedSegment v)) =
      segments.flatMap (segmentTokens v) := by
  induction segments with
  | nil => rfl
  | cons segment segments ih =>
    rw [List.flatMap_cons, tokens_append, ih, List.flatMap_cons]
    cases segment with
    | inl span => rw [markedSegment, tokens_mark, segmentTokens]
    | inr special => rfl

variable {v : Vocab}

/-- A text that is cut at its control tokens alone is tokenized as it was written. -/
theorem tokens_asWritten {a : List (UInt8 ⊕ (Bytes × ℤ))} {text : Bytes}
    (h : elements (split (specials v) [] text) = a) :
    (asWritten v a).tokens = tokenizeRenderedChat v text := by
  rw [asWritten, tokens_flatMap_markedSegment, ← h, runs_elements_split, tokenizeRenderedChat_eq]

theorem tokens_markedSystem (v : Vocab) (prompts : Prompts) (setup : Setup) :
    (markedSystem v prompts setup).tokens = buildSystemTokens v prompts setup := by
  have htools : (asWritten v (trusted v prompts.toolsPrompt)).tokens =
      tokenizeRenderedChat v prompts.toolsPrompt := tokens_asWritten rfl
  unfold markedSystem buildSystemTokens agentAppendSystemPrompt
  by_cases heffort : setup.maxEffort <;> by_cases hextra : setup.extra = [] <;>
    simp [heffort, hextra, htools, tokens_markedMessage]

/-! #### Reminders -/

theorem reminder_eq (cwd : Bytes) :
    agentBuildSystemPromptReminder cwd = reminderStart cwd ++ cwd ++ reminderEnd cwd := by
  unfold agentBuildSystemPromptReminder reminderStart reminderEnd agentBuildConductNote
  split
  · rename_i hcwd
    simp [hcwd]
  · simp only [List.append_assoc]

/-- Neither the letter in front of the working directory nor the one behind it is in the
spelling of a control token. -/
theorem not_mem_spelling :
    ∀ s ∈ spellings, (0x20 : UInt8) ∉ s ∧ (0x0a : UInt8) ∉ s ∧ (0x42 : UInt8) ∉ s := by
  decide

theorem reminderStart_last (cwd : Bytes) :
    ∃ left d, reminderStart cwd = left ++ [d] ∧ ∀ s ∈ spellings, d ∉ s := by
  unfold reminderStart
  generalize str "\n\n[System prompt reminder follows.]\n" ++ agentDsmlSyntaxReminder = front
  by_cases hcwd : cwd = []
  · obtain ⟨left, hleft⟩ := List.getLast?_eq_some_iff.mp
      (show agentConductRules.getLast? = some 0x0a by decide +kernel)
    refine ⟨front ++ left, 0x0a, ?_, fun s hs => (not_mem_spelling s hs).2.1⟩
    rw [if_pos hcwd, hleft, List.append_assoc]
  · obtain ⟨left, hleft⟩ := List.getLast?_eq_some_iff.mp
      (show (str "Workspace: ").getLast? = some 0x20 by decide)
    refine ⟨front ++ (agentConductRules ++ left), 0x20, ?_, fun s hs => (not_mem_spelling s hs).1⟩
    rw [if_neg hcwd, workspaceStart, hleft]
    simp only [List.append_assoc]

theorem reminderEnd_head (cwd : Bytes) :
    ∃ e right, reminderEnd cwd = e :: right ∧ ∀ s ∈ spellings, e ∉ s := by
  unfold reminderEnd
  generalize str "[End system prompt reminder.]\n\n" = back
  by_cases hcwd : cwd = []
  · obtain ⟨right, hright⟩ := List.head?_eq_some_iff.mp
      (show recitation.head? = some 0x42 by decide)
    refine ⟨0x42, right ++ back, ?_, fun s hs => (not_mem_spelling s hs).2.2⟩
    rw [if_pos hcwd, hright, List.nil_append, List.cons_append]
  · obtain ⟨right, hright⟩ := List.head?_eq_some_iff.mp
      (show workspaceEnd.head? = some 0x0a by decide)
    refine ⟨0x0a, right ++ recitation ++ back, ?_, fun s hs => (not_mem_spelling s hs).2.1⟩
    rw [if_neg hcwd, hright, List.cons_append, List.cons_append]

/-- A reminder is tokenized as it is meant if the working directory spells no control token. -/
theorem tokens_reminder (v : Vocab) {cwd : Bytes}
    (hcwd : ∀ spelling ∈ spellings, ¬ spelling <:+: cwd) :
    (asWritten v (reminderElements v cwd)).tokens =
      tokenizeRenderedChat v (agentBuildSystemPromptReminder cwd) := by
  obtain ⟨left, d, hstart, hd⟩ := reminderStart_last cwd
  obtain ⟨e, right, hend, he⟩ := reminderEnd_head cwd
  apply tokens_asWritten
  rw [reminder_eq, reminderElements, hstart, hend]
  apply elements_split_middle (solid_specials v)
  · exact fun m hm => hd m.1 (spelling_mem hm)
  · exact fun m hm => he m.1 (spelling_mem hm)
  · exact fun m hm => hcwd m.1 (spelling_mem hm)

/-! #### Loading a stripped session -/

theorem special_of_find {t : ℤ} {special : Bytes × ℤ}
    (h : (specials v).find? (·.2 = t) = some special) : special ∈ specials v ∧ special.2 = t :=
  ⟨List.mem_of_find?_eq_some h, by simpa using List.find?_some h⟩

theorem markedToken_cases (v : Vocab) (t : ℤ × Origin) :
    (∃ special ∈ specials v, special.2 = t.1 ∧ t.2 = .own ∧ markedToken v t = [.inr special]) ∨
      (t.2 = .text ∨ t.1 ∉ controlIds v) ∧ markedToken v t = (tokenText v t.1).map .inl := by
  obtain ⟨token, origin⟩ := t
  cases origin with
  | text => exact Or.inr ⟨Or.inl rfl, rfl⟩
  | own =>
    cases hfind : (specials v).find? (·.2 = token) with
    | none =>
      refine Or.inr ⟨Or.inr ?_, ?_⟩
      · intro hcontrol
        obtain ⟨special, hmem, hid⟩ := List.mem_map.mp hcontrol
        exact List.find?_eq_none.mp hfind special hmem (decide_eq_true hid)
      · simp only [markedToken, hfind]
    | some special =>
      obtain ⟨hmem, hid⟩ := special_of_find hfind
      refine Or.inl ⟨special, hmem, hid, rfl, ?_⟩
      simp only [markedToken, hfind]

theorem written_letters (text : Bytes) :
    Segment.written (text.map (Sum.inl (β := Bytes × ℤ))) = text := by
  induction text with
  | nil => rfl
  | cons c text ih => rw [List.map_cons, written_inl, ih]

theorem written_append (a b : List (UInt8 ⊕ (Bytes × ℤ))) :
    Segment.written (a ++ b) = Segment.written a ++ Segment.written b :=
  List.flatMap_append

/-- The letters and control tokens of a transcript spell what its tokens spell. -/
theorem written_elements {tokens merges : List Bytes} (hv : Loaded tokens merges v) (m : Marked) :
    Segment.written (m.elements v) = tokensText v m.tokens := by
  induction m with
  | nil => rfl
  | cons t m ih =>
    have hone : Segment.written (markedToken v t) = tokenText v t.1 := by
      rcases markedToken_cases v t with ⟨special, hmem, hid, -, hmarked⟩ | ⟨-, hmarked⟩
      · rw [hmarked, ← hid, tokenText_special hv hmem]
        simp
      · rw [hmarked, written_letters]
    have hcons : Marked.elements v (t :: m) = markedToken v t ++ Marked.elements v m := rfl
    rw [hcons, written_append, hone, ih]
    rfl

variable {m : Marked}

theorem elements_mem {special : Bytes × ℤ} (h : .inr special ∈ m.elements v) :
    special ∈ specials v := by
  obtain ⟨t, -, ht⟩ := List.mem_flatMap.mp h
  rcases markedToken_cases v t with ⟨special', hmem, -, -, hmarked⟩ | ⟨-, hmarked⟩
  · rw [hmarked, List.mem_singleton, Sum.inr.injEq] at ht
    exact ht ▸ hmem
  · rw [hmarked] at ht
    simp at ht

/-- The text of a transcript is cut at its control tokens, and nowhere else. -/
theorem split_text {tokens merges : List Bytes} (hv : Loaded tokens merges v)
    (hm : Unspelled (specials v) (m.elements v)) :
    split (specials v) [] (tokensText v m.tokens) = runs [] (m.elements v) := by
  rw [← written_elements hv m]
  exact split_written (solid_specials v) (anchored_specials v).apart [] (fun _ => elements_mem) hm

theorem tokens_stripped {tokens merges : List Bytes} (hv : Loaded tokens merges v)
    (hm : Unspelled (specials v) (m.elements v)) :
    (asWritten v (m.elements v)).tokens = tokenizeRenderedChat v (tokensText v m.tokens) := by
  rw [asWritten, tokens_flatMap_markedSegment, ← split_text hv hm, tokenizeRenderedChat_eq]

/-! #### Rebuilds -/

theorem tokens_length (m : Marked) : m.tokens.length = m.length := List.length_map _

theorem tokens_range (m : Marked) (start stop : ℤ) :
    Marked.tokens (range m start stop) = range m.tokens start stop := by
  simp only [range, Marked.tokens, List.map_take, List.map_drop]

theorem tokens_evictSpanMarks (env : Env) (m : Marked) {st : EvictState} (s : Span Bytes)
    (write : Bool) {compacted : Marked} (h : compacted.tokens = st.compacted) :
    (evictSpanMarks env m st s write compacted).tokens =
      (evictSpan env m.tokens st s write).compacted := by
  unfold evictSpanMarks evictSpan
  cases hput : contextBlobPutText env.digest write s.text st.blobs with
  | none => simp [h, tokens_range]
  | some blobs => simp [h, tokens_range, tokens_markedMessage]

theorem tokens_evictLoopMarks (env : Env) (m : Marked) (writes : ℕ → Bool) (i : ℕ)
    {st : EvictState} {compacted : Marked} (h : compacted.tokens = st.compacted)
    (spans : List (Span Bytes)) :
    (evictLoopMarks env m writes i st compacted spans).tokens =
      (evictLoop env m.tokens writes i st spans).compacted := by
  induction spans generalizing i st compacted with
  | nil => exact h
  | cons s spans ih => exact ih (i + 1) (tokens_evictSpanMarks env m s (writes i) h)

variable {w : Worker} {env : Env}

theorem step_evict_of_not {writes : ℕ → Bool} {synced : Bool}
    (h : evicts env writes synced w = false) (reminder : Bytes) :
    (step env w (.evict writes synced reminder)).transcript = w.transcript := by
  simp only [step]
  split
  · rename_i hshould
    unfold evictToolResults
    simp only
    split
    · rfl
    · rename_i hsome
      have hsynced : synced = false := by simpa [evicts, evicted, hshould, hsome] using h
      simp [hsynced]
  · rfl

theorem step_evict_of_evicts {writes : ℕ → Bool} {synced : Bool}
    (h : evicts env writes synced w = true) (reminder : Bytes) :
    (step env w (.evict writes synced reminder)).transcript =
      (evicted env writes w).compacted ++
        range w.transcript (evicted env writes w).pos w.transcript.length ++
        tokenizeRenderedChat env.vocab reminder := by
  rw [evicts, Bool.and_eq_true, Bool.and_eq_true, decide_eq_true_eq] at h
  obtain ⟨⟨hshould, hsome⟩, hsynced⟩ := h
  rw [evicted] at hsome
  rw [step, if_pos hshould]
  unfold evictToolResults
  rw [if_neg hsome, if_pos hsynced]
  rfl

theorem tokens_evictMarks (hm : m.tokens = w.transcript) (writes : ℕ → Bool) (synced : Bool)
    {cwd : Bytes}
    (hcwd : evicts env writes synced w = true → ∀ spelling ∈ spellings, ¬ spelling <:+: cwd) :
    (evictMarks env writes synced cwd w m).tokens =
      (step env w (.evict writes synced (agentBuildSystemPromptReminder cwd))).transcript := by
  have hlength : m.length = w.transcript.length := by rw [← hm, tokens_length]
  have hstart : Marked.tokens [] = (⟨[], 0, 0, w.blobs⟩ : EvictState).compacted := rfl
  have hloop := tokens_evictLoopMarks env m writes 0 hstart
    (w.toolSpans.take (w.toolSpans.length - agentEvictKeepRecent))
  unfold evictMarks
  cases hevicts : evicts env writes synced w with
  | false => rw [step_evict_of_not hevicts, if_neg Bool.false_ne_true, hm]
  | true =>
    rw [step_evict_of_evicts hevicts, if_pos rfl, tokens_append, tokens_append, hloop,
      tokens_range, hm, hlength, tokens_reminder env.vocab (hcwd hevicts)]
    rfl

theorem tokens_compactMarks (hm : m.tokens = w.transcript) (sys : Marked) (summary : Option Bytes)
    (synced : Bool) (bashUpdate : Option Bytes) :
    (compactMarks env sys summary synced bashUpdate m).tokens =
      (compact env sys.tokens summary synced bashUpdate w).transcript := by
  have hlength : m.length = w.transcript.length := by rw [← hm, tokens_length]
  have hdrop : ∀ n, Marked.tokens (m.drop n) = w.transcript.drop n := by
    intro n
    rw [← hm]
    exact List.map_drop
  unfold compactMarks compact
  rw [hlength, tokens_length]
  by_cases hshort : w.transcript.length ≤ sys.length
  · simp [hshort, hm]
  · match summary with
    | none => simp [hshort, hm]
    | some [] => simp [hshort, hm]
    | some (c :: text) =>
      cases synced with
      | false => simp [hshort, hm]
      | true =>
        cases bashUpdate with
        | none =>
          simp [hshort, hm, hdrop, tokens_markedMessage, clearToolSpans]
        | some update =>
          simp [hshort, hm, hdrop, tokens_markedMessage, clearToolSpans,
            appendToolResult_transcript]

/-! ### Tool messages -/

/-- The content of a tool message in parts, each of which is tokenized as plain text. -/
theorem toolResultLoop_parts (v : Vocab) (span content : Bytes) :
    ∃ parts : List Bytes, toolResultLoop v span content = parts.flatMap (bpeTokenizeText v) ∧
      parts.flatten = span ++ Search.mask toolResultEnd (str "&lt;") content := by
  induction content generalizing span with
  | nil => exact ⟨[span], by simp [toolResultLoop, tokenizeSpan_eq], by simp [Search.mask]⟩
  | cons c rest ih =>
    by_cases hend : toolResultEnd <+: c :: rest
    · obtain ⟨parts, hparts, hflat⟩ := ih []
      refine ⟨span :: str "&lt;" :: parts, ?_, ?_⟩
      · simp [toolResultLoop, hend, hparts, tokenizeSpan_eq]
      · simp [Search.mask, hend, hflat]
    · obtain ⟨parts, hparts, hflat⟩ := ih (span ++ [c])
      refine ⟨parts, ?_, ?_⟩
      · simp [toolResultLoop, hend, hparts]
      · simp [Search.mask, hend, hflat]

/-- A text that holds the pattern once, at its end. -/
def OnceAtEnd (pat text : Bytes) : Prop :=
  pat <:+ text ∧ ∀ before after, text = before ++ pat ++ after → after = []

theorem onceAtEnd_of_headed {pat before : Bytes} (hpat : Search.Headed pat)
    (hbefore : ¬ pat <:+: before) : OnceAtEnd pat (before ++ pat) := by
  refine ⟨List.suffix_append before pat, ?_⟩
  intro front after htext
  have hfirst := Search.find_append_headed hpat hbefore []
  rw [List.append_nil, Search.find_eq_some_iff] at hfirst
  obtain ⟨-, -, hnot⟩ := hfirst
  have hlen := congrArg List.length htext
  simp only [List.length_append] at hlen
  have hfar : before.length ≤ front.length := by
    by_contra hnear
    apply hnot front.length (by omega)
    rw [htext, List.append_assoc, List.drop_left]
    exact List.prefix_append pat after
  exact List.length_eq_zero_iff.mp (by omega)

theorem toolResultEnd_headed : Search.Headed toolResultEnd :=
  ⟨0x3c, toolResultEnd.tail, by decide, by decide⟩

/-- The tag that closes a tool result is in neither the content nor the opening tag. -/
theorem toolResultEnd_absent (content : Bytes) :
    ¬ toolResultEnd <:+: toolResultStart ++ Search.mask toolResultEnd (str "&lt;") content := by
  have hmask : ¬ toolResultEnd <:+: Search.mask toolResultEnd (str "&lt;") content := by
    have hpat : toolResultEnd = 0x3c :: toolResultEnd.tail := by decide
    have hrep : str "&lt;" = 0x26 :: str "lt;" := by decide
    exact Search.not_infix_mask hpat hrep (by decide) (by decide) content
  apply Search.not_infix_append (by decide) hmask
  intro p s hp _ hps hsuffix
  have hinits : ∀ p ∈ toolResultEnd.inits, p ≠ [] → ¬ p <:+ toolResultStart := by decide
  exact absurd hsuffix (hinits p ((List.mem_inits _ _).mpr ⟨s, hps.symm⟩) hp)

/-- A tool message is the user token and a text in which the closing tag stands once, at
its end, tokenized as plain text. -/
theorem toolMessage_closed (v : Vocab) (content : Bytes) :
    ∃ parts : List Bytes,
      chatAppendMessage v .tool content = v.userId :: parts.flatMap (bpeTokenizeText v) ∧
        OnceAtEnd toolResultEnd parts.flatten := by
  obtain ⟨parts, hparts, hflat⟩ := toolResultLoop_parts v [] content
  refine ⟨toolResultStart :: parts ++ [toolResultEnd], ?_, ?_⟩
  · simp [chatAppendMessage, bpeTokenizeToolResultText, hparts]
  · have htext : (toolResultStart :: parts ++ [toolResultEnd]).flatten =
        toolResultStart ++ Search.mask toolResultEnd (str "&lt;") content ++ toolResultEnd := by
      simp [hflat]
    rw [htext]
    exact onceAtEnd_of_headed toolResultEnd_headed (toolResultEnd_absent content)

/-! ### Plain text is never a control token -/

def PlainText (v : Vocab) (m : Marked) : Prop := ∀ t, (t, Origin.text) ∈ m → t ∉ controlIds v

theorem PlainText.nil (v : Vocab) : PlainText v [] := fun _ ht => absurd ht List.not_mem_nil

theorem PlainText.append {m n : Marked} (hm : PlainText v m) (hn : PlainText v n) :
    PlainText v (m ++ n) := by
  intro t ht
  rcases List.mem_append.mp ht with h | h
  · exact hm t h
  · exact hn t h

theorem PlainText.mono {m n : Marked} (hm : PlainText v m) (h : n ⊆ m) :
    PlainText v n := fun t ht => hm t (h ht)

theorem PlainText.range (hm : PlainText v m) (start stop : ℤ) : PlainText v (range m start stop) :=
  hm.mono fun _ h => List.take_subset _ _ (List.mem_of_mem_drop h)

theorem plainText_own (v : Vocab) (tokens : List ℤ) : PlainText v (mark .own tokens) := by
  intro t ht
  obtain ⟨_, -, heq⟩ := List.mem_map.mp ht
  cases heq

theorem plainText_mark {tokens : List ℤ} (h : ∀ t ∈ tokens, t ∉ controlIds v) :
    PlainText v (mark .text tokens) := by
  intro t ht
  obtain ⟨t', hmem, heq⟩ := List.mem_map.mp ht
  cases heq
  exact h t hmem

section Plain

variable {tokens merges : List Bytes} {v : Vocab} (hv : Loaded tokens merges v)
  (hmerges : NoControlMerge merges)
include hv hmerges

theorem plainText_markedText (text : Bytes) : PlainText v (markedText v text) :=
  plainText_mark (hv.bpeTokenizeText_plain hmerges text)

theorem toolResultText_plain (content : Bytes) :
    ∀ t ∈ bpeTokenizeToolResultText v content, t ∉ controlIds v := by
  obtain ⟨parts, hparts, -⟩ := toolResultLoop_parts v [] content
  intro t ht
  rw [bpeTokenizeToolResultText, hparts] at ht
  obtain ⟨part, -, hpart⟩ := List.mem_flatMap.mp ht
  exact hv.bpeTokenizeText_plain hmerges part t hpart

theorem plainText_markedMessage (role : Role) (content : Bytes) :
    PlainText v (markedMessage v role content) := by
  have htext := plainText_markedText hv hmerges
  have htool : PlainText v (markedText v toolResultStart ++
      mark .text (bpeTokenizeToolResultText v content) ++ markedText v toolResultEnd) :=
    ((htext toolResultStart).append
      (plainText_mark (toolResultText_plain hv hmerges content))).append (htext toolResultEnd)
  cases role with
  | system => exact htext content
  | developer => exact htext content
  | assistant => exact (plainText_own v _).append (htext content)
  | tool => exact (plainText_own v _).append htool
  | function => exact (plainText_own v _).append htool
  | user => exact (plainText_own v _).append (htext content)

theorem plainText_piece (piece : Piece) : PlainText v (piece.marked v) := by
  have hplain := hv.bpeTokenizeText_plain hmerges
  cases piece with
  | message role content => exact plainText_markedMessage hv hmerges role content
  | assistantPrefix think => exact plainText_own v _
  | sampled token => exact plainText_own v [token]
  | eos => exact plainText_own v [v.eosId]
  | forced text accepted =>
    exact (plainText_markedText hv hmerges text).mono (List.take_subset _ _)
  | extraReminder extra =>
    apply plainText_mark
    intro t ht
    rcases List.mem_append.mp ht with h | h
    · rcases List.mem_append.mp h with h | h
      · exact hplain _ t h
      · exact hplain _ t h
    · exact hplain _ t h

theorem plainText_asWritten (a : List (UInt8 ⊕ (Bytes × ℤ))) : PlainText v (asWritten v a) := by
  intro t ht
  obtain ⟨segment, -, hsegment⟩ := List.mem_flatMap.mp ht
  cases segment with
  | inl span =>
    rw [markedSegment, tokenizeSpan_eq] at hsegment
    exact plainText_markedText hv hmerges span t hsegment
  | inr special =>
    rw [markedSegment, List.mem_singleton] at hsegment
    cases hsegment

theorem plainText_markedSystem (prompts : Prompts) (setup : Setup) :
    PlainText v (markedSystem v prompts setup) := by
  have hmessage := plainText_markedMessage hv hmerges .system
  apply PlainText.append
  · apply (plainText_own v [v.bosId]).append
    split
    · exact plainText_markedText hv hmerges _
    · exact PlainText.nil v
  · apply ((plainText_asWritten hv hmerges _).append (hmessage _)).append
    split
    · exact PlainText.nil v
    · exact hmessage _

theorem plainText_compactMarks {env : Env} (henv : env.vocab = v) {sys m : Marked}
    (hsys : PlainText v sys) (hm : PlainText v m) (summary : Option Bytes) (synced : Bool)
    (bashUpdate : Option Bytes) :
    PlainText v (compactMarks env sys summary synced bashUpdate m) := by
  unfold compactMarks
  rw [henv]
  split
  · exact hm
  · have hrebuilt := (hsys.append (plainText_markedMessage hv hmerges .system
      (summaryMessage (summary.getD [])))).append (hm.mono (List.drop_subset
        (compactTailStart env m.tokens sys.length) m))
    apply hrebuilt.append
    cases bashUpdate with
    | none => exact PlainText.nil v
    | some update => exact plainText_markedMessage hv hmerges .tool update

theorem plainText_evictLoopMarks {env : Env} (henv : env.vocab = v) {m : Marked}
    (hm : PlainText v m) (writes : ℕ → Bool) (i : ℕ) (st : EvictState) {compacted : Marked}
    (h : PlainText v compacted) (spans : List (Span Bytes)) :
    PlainText v (evictLoopMarks env m writes i st compacted spans) := by
  induction spans generalizing i st compacted with
  | nil => exact h
  | cons s spans ih =>
    apply ih
    apply (h.append (hm.range st.pos s.start)).append
    rw [henv]
    split
    · exact plainText_markedMessage hv hmerges .tool _
    · exact hm.range s.start s.stop

theorem plainText_evictMarks {env : Env} (henv : env.vocab = v) {m : Marked}
    (hm : PlainText v m) (writes : ℕ → Bool) (synced : Bool) (cwd : Bytes) (w : Worker) :
    PlainText v (evictMarks env writes synced cwd w m) := by
  unfold evictMarks
  split
  · apply PlainText.append
    · apply PlainText.append
      · exact plainText_evictLoopMarks hv hmerges henv hm writes 0 _ (PlainText.nil v) _
      · exact hm.range _ _
    · rw [henv]
      exact plainText_asWritten hv hmerges _
  · exact hm

end Plain

theorem PlainText.controlTokens (h : PlainText v m) :
    controlTokens v m.tokens = controlTokens v m.own := by
  induction m with
  | nil => rfl
  | cons t m ih =>
    obtain ⟨token, origin⟩ := t
    have htail : Tokenizer.controlTokens v (Marked.tokens m) =
        Tokenizer.controlTokens v (Marked.own m) := ih (h.mono (List.subset_cons_self _ _))
    cases origin with
    | text =>
      have hplain : Tokenizer.controlTokens v [token] = [] := by
        apply controlTokens_eq_nil
        intro t ht
        rw [List.mem_singleton.mp ht]
        exact h token List.mem_cons_self
      have hcons : Marked.tokens ((token, Origin.text) :: m) = [token] ++ Marked.tokens m := rfl
      have hown : Marked.own ((token, Origin.text) :: m) = Marked.own m := rfl
      rw [hcons, controlTokens_append, hplain, hown, List.nil_append, htail]
    | own =>
      have hcons : Marked.tokens ((token, Origin.own) :: m) = [token] ++ Marked.tokens m := rfl
      have hown : Marked.own ((token, Origin.own) :: m) = [token] ++ Marked.own m := rfl
      rw [hcons, controlTokens_append, hown, controlTokens_append, htail]

/-! ### Runs -/

/-- The origins are those of the tokens in the transcript and in the files. -/
structure Tracked (v : Vocab) (s : System) : Prop where
  transcript : s.origins.transcript.tokens = s.agent.worker.transcript
  plain : PlainText v s.origins.transcript
  sysprompt : s.agent.sysprompt = s.origins.sysprompt.map Marked.tokens
  sysprompt_plain : ∀ m, s.origins.sysprompt = some m → PlainText v m
  sessions : ∀ name file, s.agent.sessions name = some file →
    ∃ m, s.origins.sessions name = some m ∧ PlainText v m ∧
      file.text = tokensText v m.tokens ∧ ∀ tokens, file.payload = some tokens → tokens = m.tokens

theorem tracked_start (v : Vocab) (blobs : Blobs) : Tracked v (.start blobs) where
  transcript := rfl
  plain := PlainText.nil v
  sysprompt := rfl
  sysprompt_plain := fun _ h => nomatch h
  sessions := fun _ _ h => nomatch h

variable {s : System}

theorem Tracked.append (h : Tracked v s) (hm : PlainText v m)
    (hw : w.transcript = s.agent.worker.transcript ++ m.tokens) :
    Tracked v ⟨{ s.agent with worker := w },
      { s.origins with transcript := s.origins.transcript ++ m }⟩ where
  transcript := by rw [tokens_append, h.transcript, hw]
  plain := h.plain.append hm
  sysprompt := h.sysprompt
  sysprompt_plain := h.sysprompt_plain
  sessions := h.sessions

theorem Tracked.rebuild (h : Tracked v s) (hm : PlainText v m)
    (hw : m.tokens = w.transcript) :
    Tracked v ⟨{ s.agent with worker := w }, { s.origins with transcript := m }⟩ where
  transcript := hw
  plain := hm
  sysprompt := h.sysprompt
  sysprompt_plain := h.sysprompt_plain
  sessions := h.sessions

section Step

variable {tokens merges : List Bytes} {v : Vocab} {env : Env} (hv : Loaded tokens merges v)
  (hmerges : NoControlMerge merges) (henv : env.vocab = v) (prompts : Prompts)
include hv hmerges henv

theorem Tracked.reset (h : Tracked v s) (setup : Setup) (loads stores : Bool) :
    Tracked v (s.act env prompts (.reset setup loads stores)) := by
  subst henv
  have hsys := tokens_markedSystem env.vocab prompts setup
  have hplain := plainText_markedSystem hv hmerges prompts setup
  let sys := markedSystem env.vocab prompts setup
  let loaded := s.origins.sysprompt.filter fun m =>
    syspromptHit env.vocab sys.tokens loads m.tokens
  have hloaded : s.agent.sysprompt.filter (syspromptHit env.vocab
      (buildSystemTokens env.vocab prompts setup) loads) = loaded.map Marked.tokens := by
    rw [h.sysprompt, ← hsys, Option.filter_map]
    rfl
  have hsaved : ∀ m, loaded = some m → PlainText env.vocab m := by
    intro m hm
    exact h.sysprompt_plain m (Option.filter_eq_some_iff.mp hm).1
  have hagent : s.agent.act env prompts (.reset setup loads stores) =
      { s.agent with
        worker := resetToSysprompt sys.tokens (loaded.map Marked.tokens) s.agent.worker
        sysprompt := if loaded.isNone ∧ stores then some sys.tokens else s.agent.sysprompt } := by
    simp only [AgentState.act, hloaded, Option.isNone_map, sys, hsys]
  have horigins : s.origins.track env prompts s.agent (.reset setup loads stores) =
      { s.origins with
        transcript := loaded.getD sys
        sysprompt := if loaded.isNone ∧ stores then some sys else s.origins.sysprompt } := rfl
  unfold System.act
  rw [hagent, horigins]
  constructor
  · cases loaded <;> rfl
  · cases hcase : loaded with
    | none => exact hplain
    | some m => exact hsaved m hcase
  · by_cases hstore : loaded.isNone ∧ stores
    · simp only [hstore, and_self, if_true, Option.map_some]
    · simp only [if_neg hstore, h.sysprompt]
  · intro m hm
    by_cases hstore : loaded.isNone ∧ stores
    · simp only [if_pos hstore, Option.some.injEq] at hm
      rw [← hm]
      exact hplain
    · simp only [if_neg hstore] at hm
      exact h.sysprompt_plain m hm
  · exact h.sessions

theorem Tracked.switch (h : Tracked v s) (name : Bytes)
    (hguard : Unforged env s (.switch name)) : Tracked v (s.act env prompts (.switch name)) := by
  subst henv
  cases hfile : s.agent.sessions name with
  | none =>
    have hsame : s.act env prompts (.switch name) = s := by
      simp [System.act, AgentState.act, Origins.track, hfile, switchSession]
    rw [hsame]
    exact h
  | some file =>
    obtain ⟨m, hmarks, hplain, htext, hpayload⟩ := h.sessions name file hfile
    have hnext : s.act env prompts (.switch name) =
        ⟨{ s.agent with
            worker := switchSession (some (agentKvLoadPath env.vocab file)) s.agent.worker },
          { s.origins with transcript := loadedMarks env.vocab file m }⟩ := by
      simp [System.act, AgentState.act, Origins.track, hfile, hmarks]
    rw [hnext]
    cases hcase : file.payload with
    | some saved =>
      apply h.rebuild
      · simpa [loadedMarks, hcase] using hplain
      · simp [loadedMarks, hcase, switchSession, agentKvLoadPath, hpayload saved hcase]
    | none =>
      obtain ⟨hzero, hspelled⟩ := hguard file m hfile hcase hmarks
      have htokens := tokens_stripped hv hspelled
      rw [← htext] at htokens
      apply h.rebuild
      · simpa [loadedMarks, hcase] using plainText_asWritten hv hmerges _
      · simp [loadedMarks, hcase, switchSession, agentKvLoadPath, htokens, cstr_eq_self hzero]

theorem Tracked.act (h : Tracked v s) (op : Op) (hop : Unforged env s op) :
    Tracked v (s.act env prompts op) := by
  cases op with
  | append piece =>
    subst henv
    apply h.append (plainText_piece hv hmerges piece)
    rw [tokens_piece]
    rfl
  | toolResult text =>
    subst henv
    apply h.append (plainText_markedMessage hv hmerges .tool text)
    rw [tokens_markedMessage]
    exact appendToolResult_transcript env _ text
  | reminder cwd =>
    subst henv
    apply h.append (plainText_asWritten hv hmerges _)
    rw [tokens_reminder env.vocab hop]
    rfl
  | evict writes synced cwd =>
    apply h.rebuild (plainText_evictMarks hv hmerges henv h.plain writes synced cwd _)
    exact tokens_evictMarks h.transcript writes synced hop
  | compact setup summary synced bashUpdate =>
    have hsys : PlainText v (markedSystem env.vocab prompts setup) :=
      henv ▸ plainText_markedSystem hv hmerges prompts setup
    apply h.rebuild (plainText_compactMarks hv hmerges henv hsys h.plain summary synced bashUpdate)
    rw [← tokens_markedSystem]
    exact tokens_compactMarks h.transcript _ summary synced bashUpdate
  | reset setup loads stores => exact h.reset hv hmerges henv prompts setup loads stores
  | save name =>
    refine ⟨h.transcript, h.plain, h.sysprompt, h.sysprompt_plain, ?_⟩
    intro name' file hfile
    by_cases hname : name' = name
    · subst hname
      simp only [System.act, AgentState.act, Function.update_self, Option.some.injEq] at hfile
      refine ⟨s.origins.transcript, ?_, h.plain, ?_, ?_⟩
      · simp [System.act, Origins.track]
      · rw [← hfile, h.transcript, henv]
      · intro tokens htokens
        rw [← hfile, Option.some.injEq] at htokens
        rw [← htokens, h.transcript]
    · simp only [System.act, AgentState.act, Function.update_of_ne hname] at hfile
      simp only [System.act, Origins.track, Function.update_of_ne hname]
      exact h.sessions name' file hfile
  | strip name =>
    refine ⟨h.transcript, h.plain, h.sysprompt, h.sysprompt_plain, ?_⟩
    intro name' file hfile
    by_cases hname : name' = name
    · subst hname
      simp only [System.act, AgentState.act, Function.update_self, Option.map_eq_some_iff] at hfile
      obtain ⟨old, hold, rfl⟩ := hfile
      obtain ⟨m, hm, hplain, htext, -⟩ := h.sessions name' old hold
      exact ⟨m, hm, hplain, htext, fun _ hnone => nomatch hnone⟩
    · simp only [System.act, AgentState.act, Function.update_of_ne hname] at hfile
      exact h.sessions name' file hfile
  | switch name => exact h.switch hv hmerges henv prompts name hop

end Step

/-- Operations that load no text with a forged control token keep the control tokens of
the transcript those of the agent and the model. The text of a stripped session is cut at
the control tokens of the saved transcript, and a tool message is closed once. -/
theorem control_tokens_own {tokens merges : List Bytes} {env : Env} {prompts : Prompts}
    {blobs : Blobs} {s : System} (hload : vocabLoad tokens merges = some env.vocab)
    (hmerges : NoControlMerge merges)
    (hrun : Run.Guarded (fun s op t => s.act env prompts op = t) (Unforged env) (.start blobs) s) :
    (s.agent.worker.transcript = s.origins.transcript.tokens ∧
      controlTokens env.vocab s.agent.worker.transcript =
        controlTokens env.vocab s.origins.transcript.own) ∧
    (∀ name file m, s.agent.sessions name = some file → s.origins.sessions name = some m →
      file.payload = none → Unforged env s (.switch name) →
        split (specials env.vocab) [] (cstr file.text) = runs [] (m.elements env.vocab)) ∧
    ∀ content, ∃ parts : List Bytes,
      chatAppendMessage env.vocab .tool content =
        env.vocab.userId :: parts.flatMap (bpeTokenizeText env.vocab) ∧
      OnceAtEnd toolResultEnd parts.flatten := by
  have hv := vocabLoad_loaded hload
  have hstep : ∀ s op t, Tracked env.vocab s → s.act env prompts op = t → Unforged env s op →
      Tracked env.vocab t := by
    intro s op t h hnext hop
    rw [← hnext]
    exact h.act hv hmerges rfl prompts op hop
  have h : Tracked env.vocab s := hrun.invariant hstep (tracked_start env.vocab blobs)
  refine ⟨⟨h.transcript.symm, ?_⟩, ?_, toolMessage_closed env.vocab⟩
  · rw [← h.transcript]
    exact h.plain.controlTokens
  · intro name file m hfile hm hstripped hguard
    obtain ⟨hzero, hspelled⟩ := hguard file m hfile hstripped hm
    obtain ⟨m', hm', -, htext, -⟩ := h.sessions name file hfile
    have hsame : m' = m := Option.some.inj (hm'.symm.trans hm)
    rw [cstr_eq_self hzero, htext, hsame]
    exact split_text hv hspelled

theorem own_asWritten_elements (m : Marked) :
    (asWritten v (m.elements v)).own = controlTokens v m.own := by
  have hruns : ∀ (span : Bytes) (a : List (UInt8 ⊕ (Bytes × ℤ))),
      Marked.own ((runs span a).flatMap (markedSegment v)) =
        a.filterMap (Sum.elim (fun _ => none) fun special => some special.2) := by
    have hspan : ∀ (span : Bytes) (m : Marked),
        Marked.own (markedSegment v (.inl span) ++ m) = m.own := by
      intro span m
      have hnone : (mark .text (tokenizeSpan v span)).filter (·.2 = .own) = [] := by
        rw [List.filter_eq_nil_iff]
        intro t ht
        obtain ⟨_, -, rfl⟩ := List.mem_map.mp ht
        simp
      rw [markedSegment, Marked.own, List.filter_append, hnone]
      rfl
    intro span a
    induction a generalizing span with
    | nil => exact hspan span []
    | cons element a ih =>
      cases element with
      | inl c => exact ih (span ++ [c])
      | inr special =>
        have hcut : (runs span (.inr special :: a)).flatMap (markedSegment v) =
            markedSegment v (.inl span) ++
              ((special.2, .own) :: (runs [] a).flatMap (markedSegment v)) := rfl
        rw [hcut, hspan]
        exact congrArg (List.cons special.2) (ih [])
  rw [asWritten, hruns]
  induction m with
  | nil => rfl
  | cons t m ih =>
    have hcons : Marked.elements v (t :: m) = markedToken v t ++ Marked.elements v m := rfl
    rw [hcons, List.filterMap_append, ih]
    obtain ⟨token, origin⟩ := t
    rcases markedToken_cases v (token, origin) with
      ⟨special, hmem, hid, horigin, hmarked⟩ | ⟨hplain, hmarked⟩
    · have hcontrol : token ∈ controlIds v := List.mem_map.mpr ⟨special, hmem, hid⟩
      have horigin' : origin = .own := horigin
      rw [hmarked, horigin']
      have hown : Marked.own ((token, Origin.own) :: m) = [token] ++ Marked.own m := rfl
      rw [hown]
      simp [controlTokens, hid, hcontrol]
    · have hletters : ((tokenText v token).map (Sum.inl (β := Bytes × ℤ))).filterMap
          (Sum.elim (fun _ => none) fun special => some special.2) = [] := by
        simp [List.filterMap_map]
      rw [hmarked, hletters]
      cases origin with
      | text => rfl
      | own =>
        have hno : token ∉ controlIds v := hplain.resolve_left Origin.noConfusion
        have hown : Marked.own ((token, Origin.own) :: m) = [token] ++ Marked.own m := rfl
        rw [hown]
        simp [controlTokens, hno]

theorem noControlMerge_sample : NoControlMerge sampleMerges := by
  intro x y h hspelling
  have heq : x ++ 0x20 :: y = str "a b" := List.mem_singleton.mp h
  have hlong := spelling_long hspelling
  have hlen := congrArg List.length heq
  simp only [List.length_append, List.length_cons] at hlen hlong
  have hshort : (str "a b").length = 3 := by decide
  omega

def samplePrompts : Prompts := ⟨str "# Tools\n", []⟩

/-- A user who writes `text`, and a session that is saved, stripped and loaded again. -/
def forge (env : Env) (text : Bytes) : System :=
  let s := (System.start fun _ => none).act env samplePrompts (.append (.message .user text))
  let s := (s.act env samplePrompts (.save [])).act env samplePrompts (.strip [])
  s.act env samplePrompts (.switch [])

theorem forge_run (env : Env) (text : Bytes) :
    Run.Free (fun s op t => s.act env samplePrompts op = t) (.start fun _ => none)
      (forge env text) := by
  have hstart : Run.Free (fun s op t => System.act env samplePrompts s op = t)
      (.start fun _ => none) (.start fun _ => none) := Run.Guarded.refl _
  have hsaved := (hstart.snoc (a := .append (.message .user text)) rfl trivial).snoc
    (a := .save []) rfl trivial
  exact (hsaved.snoc (a := .strip []) rfl trivial).snoc (a := .switch []) rfl trivial

/-- A user who writes a control token, a reminder, and the text of a tool that writes one. -/
theorem control_tokens_own_reminded :
    ∃ (env : Env) (s : System), vocabLoad sampleTokens sampleMerges = some env.vocab ∧
      s.origins.transcript ≠ [] ∧ s.agent.worker.transcript = s.origins.transcript.tokens ∧
      controlTokens env.vocab s.agent.worker.transcript =
        controlTokens env.vocab s.origins.transcript.own := by
  obtain ⟨v, hload⟩ := vocabLoad_sample
  let env : Env := { sampleEnv with vocab := v }
  have hstart : Run.Guarded (fun s op t => System.act env samplePrompts s op = t) (Unforged env)
      (.start fun _ => none) (.start fun _ => none) := Run.Guarded.refl _
  have hasked := hstart.snoc (a := .append (.message .user thinkStart)) rfl trivial
  have hplain : ∀ spelling ∈ spellings, ¬ spelling <:+: str "/" := by decide
  have hreminded := hasked.snoc (a := .reminder (str "/")) rfl hplain
  have hrun := hreminded.snoc (a := .toolResult thinkStart) rfl trivial
  obtain ⟨⟨htranscript, hcontrol⟩, -⟩ := control_tokens_own hload noControlMerge_sample hrun
  exact ⟨env, _, hload, List.cons_ne_nil _ _, htranscript, hcontrol⟩

theorem forge_transcript (env : Env) (text : Bytes) :
    (forge env text).agent.worker.transcript = tokenizeRenderedChat env.vocab
      (cstr (tokensText env.vocab (chatAppendMessage env.vocab .user text))) := by
  simp [forge, System.act, AgentState.act, System.start, Worker.start, Worker.append,
    switchSession, agentKvLoadPath, Piece.tokens]

theorem forge_origins (env : Env) (text : Bytes) :
    (forge env text).origins.transcript = asWritten env.vocab
      (Marked.elements env.vocab (markedMessage env.vocab .user text)) := by
  simp [forge, System.act, AgentState.act, Origins.track, System.start, Worker.start,
    loadedMarks, Piece.marked]

theorem own_user (v : Vocab) (text : Bytes) :
    Marked.own (markedMessage v .user text) = [v.userId] := by
  have hnone : (markedText v text).filter (·.2 = .own) = [] := by
    rw [List.filter_eq_nil_iff]
    intro t ht
    obtain ⟨_, -, rfl⟩ := List.mem_map.mp ht
    simp
  have hshape : markedMessage v .user text = (v.userId, .own) :: markedText v text := rfl
  rw [hshape, Marked.own, List.filter_cons_of_pos (by simp), hnone]
  rfl

/-- Text of the user that spells a control token is one when its session was stripped. -/
theorem text_forges_control_token :
    ¬ ∀ (tokens merges : List Bytes) (env : Env) (prompts : Prompts) (blobs : Blobs) (s : System),
      vocabLoad tokens merges = some env.vocab → NoControlMerge merges →
      Run.Free (fun s op t => s.act env prompts op = t) (.start blobs) s →
        controlTokens env.vocab s.agent.worker.transcript =
          controlTokens env.vocab s.origins.transcript.own := by
  intro hclaim
  obtain ⟨v, hload⟩ := vocabLoad_sample
  have hv := vocabLoad_loaded hload
  let env : Env := { sampleEnv with vocab := v }
  have hforged := hclaim _ _ env samplePrompts _ _ hload noControlMerge_sample
    (forge_run env thinkStart)
  have huser : (user, v.userId) ∈ specials v := by simp [specials]
  have hthink : (thinkStart, v.thinkStartId) ∈ specials v := by simp [specials]
  have htext : tokensText v (chatAppendMessage v .user thinkStart) = user ++ thinkStart := by
    rw [chatAppendMessage, tokensText, List.flatMap_cons, ← tokensText,
      tokensText_bpeTokenizeText hv closed_sample, tokenText_special hv huser]
  have hempty : tokenizeRenderedChat v [] = [] := by
    simp [tokenizeRenderedChat, renderedLoop, tokenizeSpan]
  have htokens : tokenizeRenderedChat v (user ++ thinkStart) = [v.userId, v.thinkStartId] := by
    have hfirst := tokenizeRenderedChat_append_special v huser (by decide) [] thinkStart
    have hsecond := tokenizeRenderedChat_append_special v hthink (by decide) [] []
    rw [List.nil_append, List.append_nil, hempty] at hsecond
    rw [hempty, hsecond] at hfirst
    exact hfirst
  have hzero : (0 : UInt8) ∉ user ++ thinkStart := by decide
  have htranscript : (forge env thinkStart).agent.worker.transcript =
      [v.userId, v.thinkStartId] := by
    rw [forge_transcript]
    change tokenizeRenderedChat v (cstr (tokensText v (chatAppendMessage v .user thinkStart))) = _
    rw [htext, cstr_eq_self hzero, htokens]
  -- The agent appended the user token alone.
  have hown : (forge env thinkStart).origins.transcript.own = controlTokens v [v.userId] := by
    rw [forge_origins, own_asWritten_elements, own_user]
  have hcontrol : v.userId ∈ controlIds v ∧ v.thinkStartId ∈ controlIds v :=
    ⟨List.mem_map_of_mem huser, List.mem_map_of_mem hthink⟩
  rw [htranscript, hown] at hforged
  have hlen := congrArg List.length hforged
  have hlong : (controlTokens v [v.userId, v.thinkStartId]).length = 2 := by
    simp [controlTokens, hcontrol]
  have hshort : (controlTokens v (controlTokens v [v.userId])).length = 1 := by
    simp [controlTokens, hcontrol]
  have hsame : (controlTokens v [v.userId, v.thinkStartId]).length =
      (controlTokens v (controlTokens v [v.userId])).length := hlen
  omega

end Ds4Studio.Agent
