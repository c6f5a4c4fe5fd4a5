import Ds4Studio.Dsml.Render
import Ds4Studio.Tokenizer.Bpe

/-!
The renderers of a conversation. `renderChatPromptText` writes the prompt of a
whole history, `renderLiveToolTail` only what follows a turn that is still live
in the session. Both walk over the messages with two flags: whether an assistant
turn is due, and whether the last message was a tool result.
-/

namespace Ds4Studio.Chat

open Bytes List Search

/-- The roles the renderers tell apart; every other role is skipped. -/
inductive Role where
  | system | developer | user | tool | function | assistant | other
deriving DecidableEq

structure ChatMsg where
  role : Role
  content : Bytes
  reasoning : Bytes
  calls : Dsml.ToolCalls

inductive ThinkMode where
  | none | high | max
deriving DecidableEq

def ThinkMode.enabled : ThinkMode → Bool
  | .none => false
  | .high => true
  | .max => true

def Role.isSystem : Role → Bool
  | .system | .developer => true
  | _ => false

def Role.isUserLike : Role → Bool
  | .user | .tool | .function => true
  | _ => false

def Role.isToolResult : Role → Bool
  | .tool | .function => true
  | _ => false

def chatHistoryUsesToolContext (msgs : List ChatMsg) (toolSchemas : Bytes) : Bool :=
  toolSchemas ≠ [] ||
    msgs.any fun m => (m.role = .assistant && m.calls.v.length > 0) || m.role.isToolResult

/-- `DS4_REASONING_EFFORT_MAX_PREFIX` -/
def thinkMaxPrefix : Bytes :=
  str "Reasoning Effort: Absolute maximum with no shortcuts permitted.\n" ++
  str "You MUST be very thorough in your thinking and comprehensively decompose the problem to resolve the root cause, rigorously stress-testing your logic against all potential paths, edge cases, and adversarial scenarios.\n" ++
  str "Explicitly write out your entire deliberation process, documenting every intermediate step, considered alternative, and rejected hypothesis to ensure absolutely no assumption is left unchecked.\n\n"

def toolsPromptHead : Bytes :=
  str "## Tools\n\n" ++
  str "You have access to a set of tools to help answer the user question. " ++
  str "You can invoke tools by writing a \"<｜DSML｜tool_calls>\" block like the following:\n\n" ++
  str "<｜DSML｜tool_calls>\n" ++
  str "<｜DSML｜invoke name=\"$TOOL_NAME\">\n" ++
  str "<｜DSML｜parameter name=\"$PARAMETER_NAME\" string=\"true|false\">$PARAMETER_VALUE</｜DSML｜parameter>\n" ++
  str "...\n" ++
  str "</｜DSML｜invoke>\n" ++
  str "<｜DSML｜invoke name=\"$TOOL_NAME2\">\n" ++
  str "...\n" ++
  str "</｜DSML｜invoke>\n" ++
  str "</｜DSML｜tool_calls>\n\n" ++
  str "String parameters should be specified as raw text and set `string=\"true\"`. " ++
  str "Preserve characters such as `>`, `&`, and `&&` exactly; never replace normal string characters with XML or HTML entity escapes. " ++
  str "Only if a string value itself contains the exact closing parameter tag `</｜DSML｜parameter>`, write that tag as `&lt;/｜DSML｜parameter>` inside the value. " ++
  str "For all other types (numbers, booleans, arrays, objects), pass the value in JSON format and set `string=\"false\"`.\n\n" ++
  str "If thinking_mode is enabled (triggered by <think>), you MUST output your complete reasoning inside <think>...</think> BEFORE any tool calls or final response.\n\n" ++
  str "Otherwise, output directly after </think> with tool calls or final response.\n\n" ++
  str "### Available Tool Schemas\n\n"

def toolsPromptTail : Bytes :=
  str "\n\nYou MUST strictly follow the above defined tool name and parameter schemas to invoke tool calls. " ++
  str "Use the exact parameter names from the schemas."

def appendToolsPromptText (toolSchemas : Bytes) : Bytes :=
  if toolSchemas = [] then [] else toolsPromptHead ++ toolSchemas ++ toolsPromptTail

/-- Only the closing tag of the wrapper is escaped in a tool result. -/
def appendToolResultText (s : Bytes) : Bytes := mask (str "</tool_result>") (str "&lt;") s

/-! ### The prompt of a history -/

/-- The loop over the system messages, from the system text collected so far. -/
def appendSystemMessages (system : Bytes) : List ChatMsg → Bytes
  | [] => system
  | m :: msgs =>
      if m.role.isSystem then
        appendSystemMessages ((if system = [] then [] else system ++ str "\n\n") ++ m.content) msgs
      else appendSystemMessages system msgs

def systemText (msgs : List ChatMsg) (toolSchemas : Bytes) : Bytes :=
  appendSystemMessages (appendToolsPromptText toolSchemas) msgs

/-- The loop for `last_user_idx`. -/
def lastUserIdx : ℕ → ℤ → List ChatMsg → ℤ
  | _, last, [] => last
  | i, last, m :: msgs => lastUserIdx (i + 1) (if m.role.isUserLike then i else last) msgs

structure Pending where
  assistant : Bool
  toolResult : Bool

def Pending.start : Pending := ⟨false, false⟩

def userTurn (content : Bytes) : Bytes := Tokenizer.user ++ content

def toolResultTurn (p : Pending) (content : Bytes) : Bytes :=
  (if p.toolResult then [] else Tokenizer.user) ++ str "<tool_result>" ++
    appendToolResultText content ++ str "</tool_result>"

/-- The assistant tag of message `i` and what is shown of its reasoning. -/
def assistantHead (think toolContext : Bool) (lastUser : ℤ) (i : ℕ) (m : ChatMsg) : Bytes :=
  Tokenizer.assistant ++
    (if think then
      if toolContext || lastUser < i then
        Tokenizer.thinkStart ++ m.reasoning ++ Tokenizer.thinkEnd
      else Tokenizer.thinkEnd
    else Tokenizer.thinkEnd)

def assistantBody (m : ChatMsg) : Bytes :=
  m.content ++ Dsml.appendDsmlToolCallsText m.calls ++ Tokenizer.eos

def renderMessage (think toolContext : Bool) (lastUser : ℤ) (i : ℕ) (p : Pending)
    (m : ChatMsg) : Bytes × Pending :=
  match m.role with
  | .system | .developer => ([], p)
  | .user => (userTurn m.content, ⟨true, false⟩)
  | .tool | .function => (toolResultTurn p m.content, ⟨true, true⟩)
  | .assistant =>
      ((if p.assistant then assistantHead think toolContext lastUser i m else []) ++
        assistantBody m, ⟨false, false⟩)
  | .other => ([], p)

def renderMessages (think toolContext : Bool) (lastUser : ℤ) :
    ℕ → Pending → List ChatMsg → Bytes × Pending
  | _, p, [] => ([], p)
  | i, p, m :: msgs =>
      let (out, p') := renderMessage think toolContext lastUser i p m
      let (rest, q) := renderMessages think toolContext lastUser (i + 1) p' msgs
      (out ++ rest, q)

/-- The assistant tag that asks for the next turn. -/
def assistantPrompt (think : Bool) (p : Pending) : Bytes :=
  if p.assistant then
    Tokenizer.assistant ++ (if think then Tokenizer.thinkStart else Tokenizer.thinkEnd)
  else []

/-- The prompt in front of the messages. -/
def promptHead (msgs : List ChatMsg) (toolSchemas : Bytes) (mode : ThinkMode) : Bytes :=
  Tokenizer.bos ++ (if mode = .max then thinkMaxPrefix else []) ++ systemText msgs toolSchemas

/-- Everything `render_chat_prompt_text` writes in front of the assistant tag it
asks for the next turn with, and the flags it ends with. -/
def renderHistory (msgs : List ChatMsg) (toolSchemas : Bytes) (mode : ThinkMode) :
    Bytes × Pending :=
  let (body, p) := renderMessages mode.enabled (chatHistoryUsesToolContext msgs toolSchemas)
    (lastUserIdx 0 (-1) msgs) 0 .start msgs
  (promptHead msgs toolSchemas mode ++ body, p)

def renderChatPromptText (msgs : List ChatMsg) (toolSchemas : Bytes) (mode : ThinkMode) : Bytes :=
  (renderHistory msgs toolSchemas mode).1 ++
    assistantPrompt mode.enabled (renderHistory msgs toolSchemas mode).2

/-! ### The tail of a live turn -/

def liveMessage (think : Bool) (p : Pending) (m : ChatMsg) : Bytes × Pending :=
  match m.role with
  | .system | .developer => ([], p)
  | .user => (userTurn m.content, ⟨true, false⟩)
  | .tool | .function => (toolResultTurn p m.content, ⟨true, true⟩)
  | .assistant =>
      ((if p.assistant then
          Tokenizer.assistant ++
            (if think then Tokenizer.thinkStart ++ m.reasoning ++ Tokenizer.thinkEnd
            else Tokenizer.thinkEnd)
        else []) ++ assistantBody m, ⟨false, false⟩)
  | .other => ([], p)

def liveMessages (think : Bool) : Pending → List ChatMsg → Bytes × Pending
  | p, [] => ([], p)
  | p, m :: msgs =>
      let (out, p') := liveMessage think p m
      let (rest, q) := liveMessages think p' msgs
      (out ++ rest, q)

def renderLiveToolTail (msgs : List ChatMsg) (start : ℕ) (mode : ThinkMode) : Bytes :=
  let (body, p) := liveMessages mode.enabled .start (msgs.drop start)
  Tokenizer.eos ++ body ++ assistantPrompt mode.enabled p

/-! ### How the loops go on -/

theorem renderMessages_append (think toolContext : Bool) (lastUser : ℤ) (i : ℕ) (p : Pending)
    (l r : List ChatMsg) :
    renderMessages think toolContext lastUser i p (l ++ r) =
      ((renderMessages think toolContext lastUser i p l).1 ++
        (renderMessages think toolContext lastUser (i + l.length)
          (renderMessages think toolContext lastUser i p l).2 r).1,
       (renderMessages think toolContext lastUser (i + l.length)
          (renderMessages think toolContext lastUser i p l).2 r).2) := by
  induction l generalizing i p with
  | nil => simp [renderMessages]
  | cons m l ih =>
    simp only [cons_append, renderMessages, ih, append_assoc, length_cons]
    rw [Nat.add_right_comm i 1 l.length, Nat.add_assoc]

/-- Only assistant messages look at the index of the last user message. -/
theorem renderMessage_congr {think toolContext : Bool} {lastUser lastUser' : ℤ} {i i' : ℕ}
    {m : ChatMsg} (p : Pending)
    (h : m.role = .assistant → (toolContext || lastUser < i) = (toolContext || lastUser' < i')) :
    renderMessage think toolContext lastUser i p m =
      renderMessage think toolContext lastUser' i' p m := by
  unfold renderMessage
  cases hrole : m.role with
  | assistant => simp only [assistantHead, h hrole]
  | system => rfl
  | developer => rfl
  | user => rfl
  | tool => rfl
  | function => rfl
  | other => rfl

theorem renderMessages_congr {think toolContext : Bool} {lastUser lastUser' : ℤ} {i i' : ℕ}
    (p : Pending) (msgs : List ChatMsg) (h : ∀ j m, msgs[j]? = some m → m.role = .assistant →
      (toolContext || lastUser < ↑(i + j)) = (toolContext || lastUser' < ↑(i' + j))) :
    renderMessages think toolContext lastUser i p msgs =
      renderMessages think toolContext lastUser' i' p msgs := by
  induction msgs generalizing i i' p with
  | nil => rfl
  | cons m msgs ih =>
    have hhead : renderMessage think toolContext lastUser i p m =
        renderMessage think toolContext lastUser' i' p m :=
      renderMessage_congr p fun hrole => h 0 m rfl hrole
    have htail : ∀ q, renderMessages think toolContext lastUser (i + 1) q msgs =
        renderMessages think toolContext lastUser' (i' + 1) q msgs := by
      intro q
      apply ih
      intro j m' hj hrole
      have := h (j + 1) m' (by simpa using hj) hrole
      simpa [Nat.add_assoc, Nat.add_comm 1 j] using this
    simp only [renderMessages, hhead, htail]

theorem appendSystemMessages_append (system : Bytes) (l r : List ChatMsg) :
    appendSystemMessages system (l ++ r) =
      appendSystemMessages (appendSystemMessages system l) r := by
  induction l generalizing system with
  | nil => rfl
  | cons m l ih =>
    simp only [cons_append, appendSystemMessages]
    split <;> apply ih

theorem appendSystemMessages_skip (system : Bytes) {msgs : List ChatMsg}
    (h : ∀ m ∈ msgs, m.role.isSystem = false) : appendSystemMessages system msgs = system := by
  induction msgs with
  | nil => rfl
  | cons m msgs ih =>
    have hm := h m mem_cons_self
    rw [appendSystemMessages, hm]
    exact ih fun m' hm' => h m' (mem_cons_of_mem m hm')

/-- Messages that are no system messages leave the head of the prompt as it is,
wherever they stand. -/
theorem promptHead_insert (l r : List ChatMsg) {more : List ChatMsg} (toolSchemas : Bytes)
    (mode : ThinkMode) (h : ∀ m ∈ more, m.role.isSystem = false) :
    promptHead (l ++ more ++ r) toolSchemas mode = promptHead (l ++ r) toolSchemas mode := by
  simp only [promptHead, systemText, appendSystemMessages_append, appendSystemMessages_skip _ h]

/-! ### Live continuation -/

theorem liveMessages_eq {think toolContext : Bool} {lastUser : ℤ} {i : ℕ} {p : Pending}
    {msgs : List ChatMsg} (h : ∀ m ∈ msgs, m.role.isUserLike = true) :
    liveMessages think p msgs = renderMessages think toolContext lastUser i p msgs := by
  induction msgs generalizing i p with
  | nil => rfl
  | cons m msgs ih =>
    have hm := h m mem_cons_self
    have hrest : ∀ q, liveMessages think q msgs =
        renderMessages think toolContext lastUser (i + 1) q msgs :=
      fun q => ih fun m' hm' => h m' (mem_cons_of_mem m hm')
    have hone : liveMessage think p m = renderMessage think toolContext lastUser i p m := by
      unfold liveMessage renderMessage
      cases hrole : m.role with
      | assistant => simp [hrole, Role.isUserLike] at hm
      | system => rfl
      | developer => rfl
      | user => rfl
      | tool => rfl
      | function => rfl
      | other => rfl
    simp only [liveMessages, renderMessages, hone, hrest]

/-- A rendered history that ends with an assistant turn ends with the end of
sentence, and no turn is due. -/
theorem renderMessages_concat_assistant (think toolContext : Bool) (lastUser : ℤ) (i : ℕ)
    (p : Pending) (init : List ChatMsg) {m : ChatMsg} (hm : m.role = .assistant) :
    ∃ out, renderMessages think toolContext lastUser i p (init ++ [m]) =
      (out ++ Tokenizer.eos, ⟨false, false⟩) := by
  rw [renderMessages_append]
  simp only [renderMessages, renderMessage, hm, assistantBody, append_nil, ← append_assoc]
  exact ⟨_, rfl⟩

/-- The live tail brings its own end of sentence, which the live session has not
sampled yet; the rendered history already ends with it. -/
theorem renderChatPromptText_liveToolTail (toolSchemas : Bytes) (mode : ThinkMode)
    (init tail : List ChatMsg) (m : ChatMsg) (hrole : m.role = .assistant)
    (hcalls : m.calls.v ≠ []) (htail : ∀ t ∈ tail, t.role.isUserLike = true) :
    ∃ base, (renderHistory (init ++ [m]) toolSchemas mode).1 = base ++ Tokenizer.eos ∧
      renderChatPromptText (init ++ [m] ++ tail) toolSchemas mode =
        base ++ renderLiveToolTail (init ++ [m] ++ tail) (init ++ [m]).length mode := by
  have hlive : ∀ more, chatHistoryUsesToolContext (init ++ [m] ++ more) toolSchemas = true := by
    intro more
    have hpos := length_pos_of_ne_nil hcalls
    simp [chatHistoryUsesToolContext, hrole, hpos]
  have hfirst : chatHistoryUsesToolContext (init ++ [m]) toolSchemas = true := by
    simpa using hlive []
  have hsystem : ∀ t ∈ tail, t.role.isSystem = false := by
    intro t ht
    have := htail t ht
    cases hr : t.role <;> simp_all [Role.isUserLike, Role.isSystem]
  have hhead : promptHead (init ++ [m] ++ tail) toolSchemas mode =
      promptHead (init ++ [m]) toolSchemas mode := by
    simpa using promptHead_insert (init ++ [m]) [] toolSchemas mode hsystem
  -- In a tool context the reasoning of every turn is shown, whichever user message is last.
  have hbody : ∀ last last' : ℤ,
      renderMessages mode.enabled true last 0 .start (init ++ [m]) =
        renderMessages mode.enabled true last' 0 .start (init ++ [m]) := by
    intro last last'
    apply renderMessages_congr
    intro _ _ _ _
    simp
  obtain ⟨out, hout⟩ := renderMessages_concat_assistant mode.enabled true
    (lastUserIdx 0 (-1) (init ++ [m])) 0 .start init hrole
  refine ⟨promptHead (init ++ [m]) toolSchemas mode ++ out, ?_, ?_⟩
  · simp only [renderHistory, hfirst, hout, append_assoc]
  · have hwhole := renderMessages_append mode.enabled true
      (lastUserIdx 0 (-1) (init ++ [m] ++ tail)) 0 .start (init ++ [m]) tail
    rw [hbody _ (lastUserIdx 0 (-1) (init ++ [m])), hout] at hwhole
    have heq : liveMessages mode.enabled ⟨false, false⟩ tail = renderMessages mode.enabled true
        (lastUserIdx 0 (-1) (init ++ [m] ++ tail)) (0 + (init ++ [m]).length) ⟨false, false⟩ tail :=
      liveMessages_eq htail
    simp only [renderChatPromptText, renderHistory, hlive, hwhole, hhead, renderLiveToolTail]
    rw [drop_left]
    simp only [Pending.start, heq, append_assoc]

def userMsg (content : Bytes) : ChatMsg := ⟨.user, content, [], ⟨[], none⟩⟩

/-- A turn that called a tool, with the block it was sampled as. -/
def sampleCall : ChatMsg where
  role := .assistant
  content := str "Let me look."
  reasoning := str "I need the file."
  calls := ⟨[⟨str "read", str "\x7b\x7d"⟩], some (str "\n\n<｜DSML｜tool_calls>")⟩

def sampleResult : ChatMsg := ⟨.tool, str "empty", [], ⟨[], none⟩⟩

theorem renderChatPromptText_liveToolTail_sample :
    ∃ base, (renderHistory ([userMsg (str "Read it.")] ++ [sampleCall]) [] .high).1 =
        base ++ Tokenizer.eos ∧
      renderChatPromptText ([userMsg (str "Read it.")] ++ [sampleCall] ++ [sampleResult]) [] .high =
        base ++ renderLiveToolTail ([userMsg (str "Read it.")] ++ [sampleCall] ++ [sampleResult])
          2 .high :=
  renderChatPromptText_liveToolTail [] .high [userMsg (str "Read it.")] [sampleResult] sampleCall
    rfl (by decide) (by decide)

/-- The rendered history already ends with the end of sentence the tail starts with. -/
theorem liveToolTail_repeats_eos :
    ¬ ∀ (toolSchemas : Bytes) (mode : ThinkMode) (init tail : List ChatMsg) (m : ChatMsg),
      m.role = .assistant → m.calls.v ≠ [] → (∀ t ∈ tail, t.role.isUserLike = true) →
      renderChatPromptText (init ++ [m] ++ tail) toolSchemas mode =
        (renderHistory (init ++ [m]) toolSchemas mode).1 ++
          renderLiveToolTail (init ++ [m] ++ tail) (init ++ [m]).length mode := by
  intro hclaim
  have hsame := hclaim [] .none [userMsg (str "Read it.")] [sampleResult] sampleCall
  revert hsame
  decide

end Ds4Studio.Chat
