import Ds4Studio.Chat.VisibleKey
import Ds4Studio.Stream.Responses

/-!
The key under which a Responses answer is remembered: the prompt and the answer as a
client can replay it. The next request replays the input, the output items it was sent
and more items, and the parser makes messages of them again. The key is a prefix of the
next prompt as long as it is written from what the client replays.
-/

namespace Ds4Studio.Chat

open Bytes List Option

/-! ### Input items -/

inductive ItemType where
  | message | reasoning
  | functionCall | customToolCall
  | functionCallOutput | customToolCallOutput
  | localShellCall | webSearchCall | toolSearchCall | imageGenerationCall
  | localShellCallOutput | webSearchCallOutput | toolSearchOutput | toolSearchCallOutput
  | imageGenerationCallOutput
  | compaction | contextCompaction
  | unknown
deriving DecidableEq

/-- The fields of an item that the parser reads. -/
structure InputItem where
  type : ItemType
  role : Option Role := none
  content : Option Bytes := none
  name : Option Bytes := none
  nameSpace : Option Bytes := none
  callId : Option Bytes := none
  id : Option Bytes := none
  arguments : Option Bytes := none
  output : Option Bytes := none
  input : Option Bytes := none
  summary : Option Bytes := none
  action : Option Bytes := none
  result : Option Bytes := none
  tools : Option Bytes := none
  status : Option Bytes := none

/-- A message with the identifiers of its calls. -/
structure InputMsg where
  msg : ChatMsg
  callIds : List Bytes

structure InputParse where
  msgs : List InputMsg
  pendingReasoning : Bytes
  loadedToolSchemas : Bytes

def InputParse.start : InputParse := ⟨[], [], []⟩

def InputParse.push (st : InputParse) (m : InputMsg) : InputParse :=
  { st with msgs := st.msgs ++ [m] }

def ItemType.isCall : ItemType → Bool
  | .functionCall | .customToolCall => true
  | .localShellCall | .webSearchCall | .toolSearchCall | .imageGenerationCall => true
  | _ => false

def consumesReasoning (item : InputItem) : Bool :=
  (item.type = .message && item.role = some .assistant) || item.type.isCall

def ItemType.isBookkeeping : ItemType → Bool
  | .compaction | .contextCompaction => true
  | _ => false

def assistantMsg (content reasoning : Bytes) : InputMsg :=
  ⟨⟨.assistant, content, reasoning, ⟨[], none⟩⟩, []⟩

/-- Reasoning that no message has taken becomes a message of its own. -/
def flushReasoning (st : InputParse) : InputParse :=
  if st.pendingReasoning = [] then st
  else { st.push (assistantMsg [] st.pendingReasoning) with pendingReasoning := [] }

def InputMsg.addCall (m : InputMsg) (id : Bytes) (tc : Dsml.ToolCall) : InputMsg where
  msg := { m.msg with calls := { m.msg.calls with v := m.msg.calls.v ++ [tc] } }
  callIds := m.callIds ++ [id]

def InputMsg.setReasoning (m : InputMsg) (reasoning : Bytes) : InputMsg :=
  { m with msg := { m.msg with reasoning := reasoning } }

/-- A call goes to the assistant message in front of it, or becomes one. -/
def pushCall (st : InputParse) (id : Bytes) (tc : Dsml.ToolCall) : InputParse :=
  match st.msgs.getLast? with
  | some last =>
      if last.msg.role = .assistant then
        if st.pendingReasoning ≠ [] ∧ last.msg.reasoning = [] then
          { st with
            msgs := st.msgs.dropLast ++ [(last.setReasoning st.pendingReasoning).addCall id tc]
            pendingReasoning := [] }
        else { st with msgs := st.msgs.dropLast ++ [last.addCall id tc] }
      else
        { st.push ((assistantMsg [] st.pendingReasoning).addCall id tc) with
          pendingReasoning := [] }
  | none =>
      { st.push ((assistantMsg [] st.pendingReasoning).addCall id tc) with pendingReasoning := [] }

/-- The name a call has in the history. -/
def historyCallName (item : InputItem) : Bytes :=
  match item.type with
  | .functionCall =>
      match item.nameSpace, item.name with
      | some space, some name => if space ≠ [] ∧ name ≠ [] then space ++ name else name
      | _, name => name.getD []
  | .customToolCall => item.name.getD []
  | .toolSearchCall => str "tool_search"
  | .localShellCall => str "local_shell"
  | .webSearchCall => str "web_search_call"
  | _ => str "image_generation_call"

def historyCall (item : InputItem) : Dsml.ToolCall where
  name := historyCallName item
  arguments :=
    match item.type with
    | .functionCall | .customToolCall => (item.arguments <|> item.input).getD (str "\x7b\x7d")
    | _ => (item.action <|> item.arguments <|> item.input).getD (str "\x7b\x7d")

def toolMsg (content : Bytes) : InputMsg := ⟨⟨.tool, content, [], ⟨[], none⟩⟩, []⟩

/-- A part of the reasoning on a line of its own. -/
def appendReasoning (pending : Bytes) (part : Option Bytes) : Bytes :=
  match part with
  | some text => if text = [] then pending else
      (if pending = [] then [] else pending ++ [0x0a]) ++ text
  | none => pending

/-- Tool schemas that a tool search has found are kept for the prompt. -/
def loadTools (parseToolsValue : Bytes → Option Bytes) (st : InputParse) (item : InputItem) :
    Option InputParse :=
  match item.type, item.tools with
  | .toolSearchOutput, some tools =>
      (parseToolsValue tools).map fun schemas =>
        if schemas = [] then st
        else { st with loadedToolSchemas :=
          (if st.loadedToolSchemas = [] then [] else st.loadedToolSchemas ++ [0x0a]) ++ schemas }
  | _, _ => some st

/-- Items that neither take the reasoning nor stand aside get it in front of them. -/
def settleReasoning (st : InputParse) (item : InputItem) : InputParse :=
  if !consumesReasoning item && !item.type.isBookkeeping then flushReasoning st else st

def takeInputItem (parseToolsValue : Bytes → Option Bytes) (st : InputParse) (item : InputItem) :
    Option InputParse :=
  match item.type with
  | .message =>
      let role := item.role.getD .user
      if role = .assistant then
        some { st.push (assistantMsg (item.content.getD []) st.pendingReasoning) with
          pendingReasoning := [] }
      else some (st.push ⟨⟨role, item.content.getD [], [], ⟨[], none⟩⟩, []⟩)
  | .reasoning =>
      some { st with pendingReasoning :=
        appendReasoning (appendReasoning st.pendingReasoning item.summary) item.content }
  | .functionCall | .customToolCall | .localShellCall | .webSearchCall | .toolSearchCall
  | .imageGenerationCall =>
      some (pushCall st ((item.callId <|> item.id).getD []) (historyCall item))
  | .functionCallOutput | .customToolCallOutput => some (st.push (toolMsg (item.output.getD [])))
  | .localShellCallOutput | .webSearchCallOutput | .toolSearchOutput | .toolSearchCallOutput
  | .imageGenerationCallOutput =>
      (loadTools parseToolsValue st item).map fun st =>
        st.push (toolMsg ((item.output <|> item.result <|> item.tools).getD []))
  | .compaction | .contextCompaction => some st
  | .unknown => none

/-- One item; an item that is not completed is refused. -/
def parseInputItem (parseToolsValue : Bytes → Option Bytes) (st : InputParse) (item : InputItem) :
    Option InputParse :=
  if item.status.any fun s => s ≠ [] ∧ s ≠ str "completed" then none
  else takeInputItem parseToolsValue (settleReasoning st item) item

def parseInputItems (parseToolsValue : Bytes → Option Bytes) :
    InputParse → List InputItem → Option InputParse
  | st, [] => some st
  | st, item :: items =>
      (parseInputItem parseToolsValue st item).bind (parseInputItems parseToolsValue · items)

/-- `parse_responses_input`, behind the reading of the items. -/
def parseResponsesInput (parseToolsValue : Bytes → Option Bytes) (items : List InputItem) :
    Option InputParse :=
  (parseInputItems parseToolsValue .start items).map flushReasoning

/-! ### Requests -/

/-- A block of calls as it was sampled. Blocks are compared by identity. -/
structure ToolMemoryBlock where
  ident : ℕ
  dsml : Bytes
deriving DecidableEq

/-- The block that holds all calls of a message. -/
def exactBlock (memory : Bytes → Option ToolMemoryBlock) (ids : List Bytes) :
    Option ToolMemoryBlock :=
  match ids with
  | [] => none
  | id :: rest => if rest.all (fun other => memory other = memory id) then memory id else none

def toolMemoryAttach (memory : Bytes → Option ToolMemoryBlock) (m : InputMsg) : ChatMsg :=
  if m.msg.calls.v = [] ∨ m.msg.calls.rawDsml.isSome then m.msg
  else
    match exactBlock memory m.callIds with
    | some block => { m.msg with calls := { m.msg.calls with rawDsml := some block.dsml } }
    | none => m.msg

/-- What a request brings besides its input, and the server adds. -/
structure ResponsesRequest where
  skills : List Bytes
  instructions : Bytes
  toolSchemas : Bytes
  toolChoiceNone : Bool
  mode : ThinkMode
  reasoningSummaryEmit : Bool

def ResponsesRequest.activeToolSchemas (r : ResponsesRequest) (loaded : Bytes) : Bytes :=
  if r.toolChoiceNone then []
  else if r.toolSchemas = [] then loaded
  else if loaded = [] then r.toolSchemas
  else r.toolSchemas ++ [0x0a] ++ loaded

def ResponsesRequest.messages (r : ResponsesRequest) (memory : Bytes → Option ToolMemoryBlock)
    (msgs : List InputMsg) : List ChatMsg :=
  requestMessages r.skills []
    ((if r.instructions = [] then [] else [systemMsg r.instructions]) ++
      msgs.map (toolMemoryAttach memory))

def ResponsesRequest.promptText (r : ResponsesRequest) (memory : Bytes → Option ToolMemoryBlock)
    (st : InputParse) : Bytes :=
  renderChatPromptText (r.messages memory st.msgs) (r.activeToolSchemas st.loadedToolSchemas) r.mode

/-! ### Answers -/

/-- A parsed answer; its calls come with their identifiers. -/
structure Answer where
  content : Bytes
  reasoning : Bytes
  calls : List (Bytes × Dsml.ToolCall)
  rawDsml : Option Bytes
  finish : Stream.Finish

def Answer.toolCalls (a : Answer) : Dsml.ToolCalls := ⟨a.calls.map Prod.snd, a.rawDsml⟩

def responsesItemStatusForFinish : Stream.Finish → Bytes
  | .length | .error => str "incomplete"
  | _ => str "completed"

/-- The part of a tool schema order that output items use. -/
structure ToolSchemaOrder where
  wireName : Option Bytes
  nameSpace : Option Bytes
  responsesToolSearch : Bool

/-- `responses_append_function_call_item` -/
def functionCallItem (orders : Bytes → Option ToolSchemaOrder) (status : Bytes)
    (call : Bytes × Dsml.ToolCall) : InputItem :=
  let order := orders call.2.name
  let arguments := some (Json.appendJsonObjectOrEmpty call.2.arguments)
  if call.2.name = str "tool_search" ∧ order.all (·.responsesToolSearch) then
    { type := .toolSearchCall
      callId := some call.1
      arguments := arguments
      status := some status }
  else
    { type := .functionCall
      name := some ((order.bind (·.wireName)).getD call.2.name)
      nameSpace := order.bind (·.nameSpace)
      callId := some call.1
      arguments := arguments
      status := some status }

/-- The items of a response. -/
def ResponsesRequest.outputItems (r : ResponsesRequest) (orders : Bytes → Option ToolSchemaOrder)
    (a : Answer) : List InputItem :=
  let status := responsesItemStatusForFinish a.finish
  (if a.reasoning ≠ [] ∧ r.reasoningSummaryEmit = true then
    [{ type := .reasoning, summary := some a.reasoning, status := some status }] else []) ++
  ((if a.content ≠ [] then
    [{ type := .message, role := some .assistant, content := some a.content
       status := some status }] else []) ++
  a.calls.map (functionCallItem orders status))

def buildResponsesVisibleAssistantSuffix (r : ResponsesRequest) (a : Answer) : Bytes :=
  (if r.mode.enabled then
    (if r.reasoningSummaryEmit = true ∧ a.calls ≠ [] then a.reasoning else []) ++
      Tokenizer.thinkEnd
  else []) ++ (a.content ++ Dsml.appendDsmlToolCallsText a.toolCalls ++ Tokenizer.eos)

/-! ### Items behind other items -/

/-- What the parser has made, behind messages that are there already. -/
def InputParse.behind (front : List InputMsg) (st : InputParse) : InputParse :=
  { st with msgs := front ++ st.msgs }

variable (front : List InputMsg)

theorem push_behind (st : InputParse) (m : InputMsg) :
    (st.behind front).push m = (st.push m).behind front := by
  simp [InputParse.push, InputParse.behind]

theorem flushReasoning_behind (st : InputParse) :
    flushReasoning (st.behind front) = (flushReasoning st).behind front := by
  unfold flushReasoning
  split <;> rename_i h
  · rw [if_pos (show st.pendingReasoning = [] from h)]
  · rw [if_neg (show ¬ st.pendingReasoning = [] from h)]
    simp [InputParse.push, InputParse.behind]

variable {st : InputParse}

theorem pushCall_behind (h : st.msgs ≠ []) (id : Bytes) (tc : Dsml.ToolCall) :
    pushCall (st.behind front) id tc = (pushCall st id tc).behind front := by
  obtain ⟨last, hlast⟩ : ∃ last, st.msgs.getLast? = some last := ⟨_, getLast?_eq_some_getLast h⟩
  have hbehind : (st.behind front).msgs.getLast? = some last := by
    simp [InputParse.behind, getLast?_append, hlast]
  have hdrop : (st.behind front).msgs.dropLast = front ++ st.msgs.dropLast :=
    dropLast_append_of_ne_nil h
  unfold pushCall
  rw [hlast, hbehind]
  simp only [hdrop]
  split
  · split <;> rename_i hpending
    · rw [if_pos (show st.pendingReasoning ≠ [] ∧ last.msg.reasoning = [] from hpending)]
      simp [InputParse.behind]
    · rw [if_neg (show ¬ (st.pendingReasoning ≠ [] ∧ last.msg.reasoning = []) from hpending)]
      simp [InputParse.behind]
  · simp [InputParse.push, InputParse.behind]

theorem loadTools_behind (parseToolsValue : Bytes → Option Bytes) (front : List InputMsg)
    (st : InputParse) (item : InputItem) :
    loadTools parseToolsValue (st.behind front) item =
      (loadTools parseToolsValue st item).map (InputParse.behind front) := by
  unfold loadTools
  split
  · rename_i tools _ _
    cases parseToolsValue tools with
    | none => rfl
    | some schemas =>
      simp only [map_some]
      split <;> rfl
  · rfl

variable {item : InputItem}

theorem takeInputItem_behind (parseToolsValue : Bytes → Option Bytes) (front : List InputMsg)
    (h : item.type.isCall = true → st.msgs ≠ []) :
    takeInputItem parseToolsValue (st.behind front) item =
      (takeInputItem parseToolsValue st item).map (InputParse.behind front) := by
  unfold takeInputItem
  cases htype : item.type with
  | message =>
    simp only
    split
    · simp [InputParse.push, InputParse.behind]
    · simp [push_behind]
  | reasoning => rfl
  | functionCall | customToolCall | localShellCall | webSearchCall | toolSearchCall
  | imageGenerationCall =>
    have hne : st.msgs ≠ [] := h (by rw [htype]; rfl)
    simp [pushCall_behind front hne]
  | functionCallOutput | customToolCallOutput => simp [push_behind]
  | localShellCallOutput | webSearchCallOutput | toolSearchOutput | toolSearchCallOutput
  | imageGenerationCallOutput =>
    simp [loadTools_behind, push_behind, Function.comp_def]
  | compaction | contextCompaction => rfl
  | unknown => rfl

theorem settleReasoning_behind (st : InputParse) (item : InputItem) :
    settleReasoning (st.behind front) item = (settleReasoning st item).behind front := by
  unfold settleReasoning
  split
  · exact flushReasoning_behind front st
  · rfl

theorem flushReasoning_msgs (st : InputParse) (h : st.msgs ≠ []) :
    (flushReasoning st).msgs ≠ [] := by
  unfold flushReasoning
  split
  · exact h
  · simp [InputParse.push]

theorem settleReasoning_msgs (st : InputParse) (item : InputItem) (h : st.msgs ≠ []) :
    (settleReasoning st item).msgs ≠ [] := by
  unfold settleReasoning
  split
  · exact flushReasoning_msgs st h
  · exact h

theorem pushCall_msgs (st : InputParse) (id : Bytes) (tc : Dsml.ToolCall) :
    (pushCall st id tc).msgs ≠ [] := by
  unfold pushCall
  split
  · split
    · split <;> simp
    · simp [InputParse.push]
  · simp [InputParse.push]

/-- Reasoning and bookkeeping only pass through; any other item leaves a message. -/
def PassesThrough (item : InputItem) : Prop :=
  item.type = .reasoning ∨ item.type.isBookkeeping = true

variable {parseToolsValue : Bytes → Option Bytes} {st st' : InputParse}

theorem takeInputItem_msgs (hst : st.msgs ≠ [] ∨ ¬ PassesThrough item)
    (h : takeInputItem parseToolsValue st item = some st') : st'.msgs ≠ [] := by
  unfold takeInputItem at h
  cases htype : item.type <;> rw [htype] at h <;> simp only at h
  case message =>
    split at h <;> rw [← some.inj h] <;> simp [InputParse.push]
  case reasoning =>
    rw [← some.inj h]
    exact hst.resolve_right fun hno => hno (Or.inl htype)
  case functionCall | customToolCall | localShellCall | webSearchCall | toolSearchCall
    | imageGenerationCall =>
    rw [← some.inj h]
    exact pushCall_msgs _ _ _
  case functionCallOutput | customToolCallOutput =>
    rw [← some.inj h]
    simp [InputParse.push]
  case localShellCallOutput | webSearchCallOutput | toolSearchOutput | toolSearchCallOutput
    | imageGenerationCallOutput =>
    obtain ⟨st'', -, rfl⟩ := map_eq_some_iff.mp h
    simp [InputParse.push]
  case compaction | contextCompaction =>
    rw [← some.inj h]
    exact hst.resolve_right fun hno => hno (Or.inr (by rw [htype]; rfl))
  case unknown => cases h

theorem parseInputItem_msgs (hst : st.msgs ≠ [] ∨ ¬ PassesThrough item)
    (h : parseInputItem parseToolsValue st item = some st') : st'.msgs ≠ [] := by
  unfold parseInputItem at h
  split at h
  · cases h
  · exact takeInputItem_msgs (hst.imp_left (settleReasoning_msgs st item)) h

theorem parseInputItem_behind (parseToolsValue : Bytes → Option Bytes) (front : List InputMsg)
    (h : item.type.isCall = true → st.msgs ≠ []) :
    parseInputItem parseToolsValue (st.behind front) item =
      (parseInputItem parseToolsValue st item).map (InputParse.behind front) := by
  unfold parseInputItem
  split
  · rfl
  · rw [settleReasoning_behind]
    apply takeInputItem_behind
    exact fun hcall => settleReasoning_msgs st item (h hcall)

/-- No call comes before the first message or tool output. -/
def CallsBehindMessages : List InputItem → Prop
  | [] => True
  | item :: items =>
      item.type.isCall = false ∧
        (PassesThrough item → CallsBehindMessages items)

theorem parseInputItems_behind (parseToolsValue : Bytes → Option Bytes) (front : List InputMsg)
    {items : List InputItem} (h : st.msgs ≠ [] ∨ CallsBehindMessages items) :
    parseInputItems parseToolsValue (st.behind front) items =
      (parseInputItems parseToolsValue st items).map (InputParse.behind front) := by
  induction items generalizing st with
  | nil => rfl
  | cons item items ih =>
    have hitem : item.type.isCall = true → st.msgs ≠ [] := by
      intro hcall
      rcases h with hst | ⟨hno, -⟩
      · exact hst
      · rw [hcall] at hno
        cases hno
    simp only [parseInputItems, parseInputItem_behind parseToolsValue front hitem]
    cases hnext : parseInputItem parseToolsValue st item with
    | none => rfl
    | some st' =>
      apply ih
      by_cases hpass : PassesThrough item
      · rcases h with hst | ⟨-, hitems⟩
        · left
          exact parseInputItem_msgs (Or.inl hst) hnext
        · exact Or.inr (hitems hpass)
      · left
        exact parseInputItem_msgs (Or.inr hpass) hnext

theorem parseInputItems_append (parseToolsValue : Bytes → Option Bytes) (st : InputParse)
    (l r : List InputItem) :
    parseInputItems parseToolsValue st (l ++ r) =
      (parseInputItems parseToolsValue st l).bind (parseInputItems parseToolsValue · r) := by
  induction l generalizing st with
  | nil => rfl
  | cons item l ih =>
    simp only [cons_append, parseInputItems, ih]
    cases parseInputItem parseToolsValue st item <;> rfl

/-! ### The replayed answer -/

/-- The message that the output items of an answer become. -/
def ResponsesRequest.replayedAnswer (r : ResponsesRequest)
    (orders : Bytes → Option ToolSchemaOrder) (a : Answer) : InputMsg where
  msg :=
    { role := .assistant
      content := a.content
      reasoning := if r.reasoningSummaryEmit then a.reasoning else []
      calls := ⟨a.calls.map fun call =>
        historyCall (functionCallItem orders (responsesItemStatusForFinish a.finish) call), none⟩ }
  callIds := a.calls.map Prod.fst

theorem functionCallItem_fields (orders : Bytes → Option ToolSchemaOrder) (status : Bytes)
    (call : Bytes × Dsml.ToolCall) :
    (functionCallItem orders status call).type.isCall = true ∧
      (functionCallItem orders status call).callId = some call.1 ∧
      (functionCallItem orders status call).status = some status := by
  simp only [functionCallItem]
  split
  · exact ⟨rfl, rfl, rfl⟩
  · exact ⟨rfl, rfl, rfl⟩

theorem takeInputItem_call (parseToolsValue : Bytes → Option Bytes) (st : InputParse)
    (h : item.type.isCall = true) :
    takeInputItem parseToolsValue (settleReasoning st item) item =
      some (pushCall st ((item.callId <|> item.id).getD []) (historyCall item)) := by
  have hsettle : settleReasoning st item = st := by simp [settleReasoning, consumesReasoning, h]
  rw [hsettle, takeInputItem]
  cases htype : item.type <;> simp [htype, ItemType.isCall] at h <;> rfl

/-- Calls behind an assistant message, with no reasoning left, go to that message. -/
theorem parseInputItems_calls (parseToolsValue : Bytes → Option Bytes)
    (orders : Bytes → Option ToolSchemaOrder) (front : List InputMsg) (schemas : Bytes)
    {m : InputMsg} (hm : m.msg.role = .assistant) (calls : List (Bytes × Dsml.ToolCall)) :
    parseInputItems parseToolsValue ⟨front ++ [m], [], schemas⟩
        (calls.map (functionCallItem orders (str "completed"))) =
      some ⟨front ++ [{
        msg := { m.msg with calls := { m.msg.calls with
          v := m.msg.calls.v ++
            calls.map fun call => historyCall (functionCallItem orders (str "completed") call) } }
        callIds := m.callIds ++ calls.map Prod.fst }], [], schemas⟩ := by
  induction calls generalizing m with
  | nil => simp [parseInputItems]
  | cons call calls ih =>
    obtain ⟨hcall, hid, hstatus⟩ := functionCallItem_fields orders (str "completed") call
    have hone : parseInputItem parseToolsValue ⟨front ++ [m], [], schemas⟩
        (functionCallItem orders (str "completed") call) =
        some ⟨front ++ [m.addCall call.1
          (historyCall (functionCallItem orders (str "completed") call))], [], schemas⟩ := by
      unfold parseInputItem
      rw [if_neg (by simp [hstatus]), takeInputItem_call _ _ hcall, hid]
      simp [pushCall, hm]
    rw [map_cons, parseInputItems, hone, bind_some,
      ih (show (m.addCall call.1 _).msg.role = .assistant from hm)]
    simp [InputMsg.addCall]

theorem parseInputItem_incomplete (parseToolsValue : Bytes → Option Bytes) (st : InputParse)
    (h : item.status = some (str "incomplete")) :
    parseInputItem parseToolsValue st item = none := by
  unfold parseInputItem
  rw [if_pos]
  rw [h]
  decide

variable {orders : Bytes → Option ToolSchemaOrder} {r : ResponsesRequest} {a : Answer}

theorem mem_outputItems_status (h : item ∈ r.outputItems orders a) :
    item.status = some (responsesItemStatusForFinish a.finish) := by
  simp only [ResponsesRequest.outputItems, mem_append, List.mem_map] at h
  rcases h with hreasoning | hmessage | ⟨call, -, rfl⟩
  · split at hreasoning
    · rw [mem_singleton.mp hreasoning]
    · simp at hreasoning
  · split at hmessage
    · rw [mem_singleton.mp hmessage]
    · simp at hmessage
  · exact (functionCallItem_fields orders _ call).2.2

theorem outputItems_completed (hne : r.outputItems orders a ≠ [])
    (h : parseInputItems parseToolsValue st (r.outputItems orders a) = some st') :
    responsesItemStatusForFinish a.finish = str "completed" := by
  obtain ⟨item, items, hitems⟩ := exists_cons_of_ne_nil hne
  have hmem : item ∈ r.outputItems orders a := by simp [hitems]
  have hstatus := mem_outputItems_status hmem
  have hcases : responsesItemStatusForFinish a.finish = str "incomplete" ∨
      responsesItemStatusForFinish a.finish = str "completed" := by
    unfold responsesItemStatusForFinish
    split <;> simp
  rcases hcases with hcut | hdone
  · rw [hcut] at hstatus
    rw [hitems, parseInputItems, parseInputItem_incomplete parseToolsValue st hstatus] at h
    cases h
  · exact hdone

theorem parseInputItem_message (parseToolsValue : Bytes → Option Bytes)
    (front : List InputMsg) (reasoning schemas content : Bytes) :
    parseInputItem parseToolsValue ⟨front, reasoning, schemas⟩
        { type := .message, role := some .assistant, content := some content
          status := some (str "completed") } =
      some ⟨front ++ [assistantMsg content reasoning], [], schemas⟩ := by
  simp [parseInputItem, settleReasoning, consumesReasoning, takeInputItem, InputParse.push]

theorem parseInputItem_reasoning (parseToolsValue : Bytes → Option Bytes)
    (front : List InputMsg) {reasoning : Bytes} (schemas : Bytes) (h : reasoning ≠ []) :
    parseInputItem parseToolsValue ⟨front, [], schemas⟩
        { type := .reasoning, summary := some reasoning, status := some (str "completed") } =
      some ⟨front, reasoning, schemas⟩ := by
  simp [parseInputItem, settleReasoning, consumesReasoning, takeInputItem, appendReasoning, h,
    flushReasoning, ItemType.isCall]

theorem parseInputItem_firstCall (parseToolsValue : Bytes → Option Bytes)
    (orders : Bytes → Option ToolSchemaOrder) {front : List InputMsg} (reasoning schemas : Bytes)
    (hfront : ∀ last, front.getLast? = some last → last.msg.role ≠ .assistant)
    (call : Bytes × Dsml.ToolCall) :
    parseInputItem parseToolsValue ⟨front, reasoning, schemas⟩
        (functionCallItem orders (str "completed") call) =
      some ⟨front ++ [(assistantMsg [] reasoning).addCall call.1
        (historyCall (functionCallItem orders (str "completed") call))], [], schemas⟩ := by
  obtain ⟨hcall, hid, hstatus⟩ := functionCallItem_fields orders (str "completed") call
  unfold parseInputItem
  rw [if_neg (by simp [hstatus]), takeInputItem_call _ _ hcall, hid]
  unfold pushCall
  cases hlast : front.getLast? with
  | none => simp [InputParse.push]
  | some last => simp [hfront last hlast, InputParse.push]

variable {schemas : Bytes}

/-- The output items of an answer become one message behind messages that end with no
assistant turn. -/
theorem parseInputItems_outputItems {front : List InputMsg}
    (hfront : ∀ last, front.getLast? = some last → last.msg.role ≠ .assistant)
    (hsome : a.content ≠ [] ∨ a.calls ≠ [])
    (h : parseInputItems parseToolsValue ⟨front, [], schemas⟩ (r.outputItems orders a) = some st) :
    st = ⟨front ++ [r.replayedAnswer orders a], [], schemas⟩ := by
  have hne : r.outputItems orders a ≠ [] := by
    rcases hsome with hcontent | hcalls
    · simp [ResponsesRequest.outputItems, hcontent]
    · simp [ResponsesRequest.outputItems, hcalls]
  have hdone : responsesItemStatusForFinish a.finish = str "completed" :=
    outputItems_completed hne h
  let shown : Bytes := if r.reasoningSummaryEmit then a.reasoning else []
  have hreasoning : parseInputItems parseToolsValue ⟨front, [], schemas⟩
      (if a.reasoning ≠ [] ∧ r.reasoningSummaryEmit = true then
        [{ type := .reasoning, summary := some a.reasoning, status := some (str "completed") }]
      else []) = some ⟨front, shown, schemas⟩ := by
    split <;> rename_i hshown
    · simp [parseInputItems, parseInputItem_reasoning parseToolsValue front schemas hshown.1,
        shown, hshown.2]
    · have hnil : shown = [] := by
        by_cases hreason : a.reasoning = []
        · simp [shown, hreason]
        · simpa [shown, hreason] using hshown
      rw [hnil]
      rfl
  have hrest : parseInputItems parseToolsValue ⟨front, shown, schemas⟩
      ((if a.content ≠ [] then
        [{ type := .message, role := some .assistant, content := some a.content
           status := some (str "completed") }] else []) ++
        a.calls.map (functionCallItem orders (str "completed"))) =
      some ⟨front ++ [r.replayedAnswer orders a], [], schemas⟩ := by
    split <;> rename_i hcontent
    · rw [singleton_append, parseInputItems, parseInputItem_message, bind_some,
        parseInputItems_calls parseToolsValue orders front schemas rfl]
      simp [assistantMsg, ResponsesRequest.replayedAnswer, hdone, shown]
    · obtain ⟨call, calls, hcalls⟩ := exists_cons_of_ne_nil (hsome.resolve_left hcontent)
      rw [hcalls, nil_append, map_cons, parseInputItems,
        parseInputItem_firstCall parseToolsValue orders shown schemas hfront, bind_some,
        parseInputItems_calls parseToolsValue orders front schemas rfl]
      have hempty : a.content = [] := not_not.mp hcontent
      simp [assistantMsg, InputMsg.addCall, ResponsesRequest.replayedAnswer, hdone, shown, hcalls,
        hempty]
  rw [ResponsesRequest.outputItems, hdone, parseInputItems_append, hreasoning, bind_some,
    hrest] at h
  exact (some.inj h).symm

/-! ### Further items -/

/-- Items that are no system messages and bring no tools. -/
def IsPlain (item : InputItem) : Prop :=
  item.type ≠ .toolSearchOutput ∧ (item.role.getD .user).isSystem = false

/-- What such items leave: no system message, and the tools that were there. -/
def InputParse.Plain (schemas : Bytes) (st : InputParse) : Prop :=
  st.loadedToolSchemas = schemas ∧ ∀ m ∈ st.msgs, m.msg.role.isSystem = false

section

variable (hst : st.Plain schemas)

include hst

theorem plain_push {m : InputMsg} (hm : m.msg.role.isSystem = false) :
    (st.push m).Plain schemas := by
  refine ⟨hst.1, fun m' hm' => ?_⟩
  rcases mem_append.mp hm' with hin | hin
  · exact hst.2 m' hin
  · rw [mem_singleton.mp hin]
    exact hm

theorem plain_flushReasoning : (flushReasoning st).Plain schemas := by
  unfold flushReasoning
  split
  · exact hst
  · exact plain_push hst rfl

theorem plain_settleReasoning (item : InputItem) : (settleReasoning st item).Plain schemas := by
  unfold settleReasoning
  split
  · exact plain_flushReasoning hst
  · exact hst

theorem plain_pushCall (id : Bytes) (tc : Dsml.ToolCall) : (pushCall st id tc).Plain schemas := by
  have hnew : ∀ reasoning, (st.push ((assistantMsg [] reasoning).addCall id tc)).Plain schemas :=
    fun reasoning => plain_push hst rfl
  have hlast : ∀ m : InputMsg, m.msg.role = .assistant →
      ∀ m' ∈ st.msgs.dropLast ++ [m], m'.msg.role.isSystem = false := by
    intro m hm m' hm'
    rcases mem_append.mp hm' with hin | hin
    · exact hst.2 m' (mem_of_mem_dropLast hin)
    · rw [mem_singleton.mp hin, hm]
      rfl
  unfold pushCall
  split
  · rename_i last _
    split
    · rename_i hrole
      split
      · exact ⟨hst.1, hlast _ hrole⟩
      · exact ⟨hst.1, hlast _ hrole⟩
    · exact hnew _
  · exact hnew _

end

theorem loadTools_plain (hitem : item.type ≠ .toolSearchOutput)
    (h : loadTools parseToolsValue st item = some st') : st' = st := by
  unfold loadTools at h
  split at h
  · rename_i htype _
    exact absurd htype hitem
  · exact (some.inj h).symm

theorem plain_takeInputItem (hst : st.Plain schemas) (hitem : IsPlain item)
    (h : takeInputItem parseToolsValue st item = some st') : st'.Plain schemas := by
  unfold takeInputItem at h
  cases htype : item.type <;> rw [htype] at h <;> simp only at h
  case message =>
    split at h <;> rw [← some.inj h]
    · exact plain_push hst rfl
    · exact plain_push hst hitem.2
  case reasoning =>
    rw [← some.inj h]
    exact hst
  case functionCall | customToolCall | localShellCall | webSearchCall | toolSearchCall
    | imageGenerationCall =>
    rw [← some.inj h]
    exact plain_pushCall hst _ _
  case functionCallOutput | customToolCallOutput =>
    rw [← some.inj h]
    exact plain_push hst rfl
  case localShellCallOutput | webSearchCallOutput | toolSearchOutput | toolSearchCallOutput
    | imageGenerationCallOutput =>
    obtain ⟨st'', hload, rfl⟩ := map_eq_some_iff.mp h
    rw [loadTools_plain hitem.1 hload]
    exact plain_push hst rfl
  case compaction | contextCompaction =>
    rw [← some.inj h]
    exact hst
  case unknown => cases h

theorem plain_parseInputItems {items : List InputItem} (hst : st.Plain schemas)
    (hitems : ∀ item ∈ items, IsPlain item)
    (h : parseInputItems parseToolsValue st items = some st') : st'.Plain schemas := by
  induction items generalizing st with
  | nil =>
    rw [← some.inj h]
    exact hst
  | cons item items ih =>
    obtain ⟨next, hnext, hrest⟩ := bind_eq_some_iff.mp h
    have hplain : next.Plain schemas := by
      unfold parseInputItem at hnext
      split at hnext
      · cases hnext
      · exact plain_takeInputItem (plain_settleReasoning hst item) (hitems item mem_cons_self) hnext
    exact ih hplain (fun item' hin => hitems item' (mem_cons_of_mem item hin)) hrest

/-! ### The next prompt -/

/-- In a tool context every turn shows its reasoning, without thinking none does. -/
theorem renderMessages_settled {think toolContext toolContext' : Bool} {last last' : ℤ}
    (h : think = true → toolContext = true ∧ toolContext' = true) (i : ℕ) (p : Pending)
    (msgs : List ChatMsg) :
    renderMessages think toolContext last i p msgs =
      renderMessages think toolContext' last' i p msgs := by
  cases think with
  | true =>
    obtain ⟨rfl, rfl⟩ := h rfl
    apply renderMessages_congr
    intro _ _ _ _
    rfl
  | false =>
    induction msgs generalizing i p with
    | nil => rfl
    | cons m msgs ih =>
      have hone : renderMessage false toolContext last i p m =
          renderMessage false toolContext' last' i p m := rfl
      simp only [renderMessages, hone, ih]

theorem chatHistoryUsesToolContext_append {l : List ChatMsg} {toolSchemas : Bytes}
    (h : chatHistoryUsesToolContext l toolSchemas = true) (r : List ChatMsg) :
    chatHistoryUsesToolContext (l ++ r) toolSchemas = true := by
  simp only [chatHistoryUsesToolContext, any_append, Bool.or_eq_true] at h ⊢
  rcases h with hschemas | hmsgs
  · exact Or.inl hschemas
  · exact Or.inr (Or.inl hmsgs)

theorem toolMemoryAttach_fields (memory : Bytes → Option ToolMemoryBlock) (m : InputMsg) :
    (toolMemoryAttach memory m).role = m.msg.role ∧
      (toolMemoryAttach memory m).content = m.msg.content ∧
      (toolMemoryAttach memory m).reasoning = m.msg.reasoning := by
  unfold toolMemoryAttach
  split
  · exact ⟨rfl, rfl, rfl⟩
  · split
    · exact ⟨rfl, rfl, rfl⟩
    · exact ⟨rfl, rfl, rfl⟩

theorem toolMemoryAttach_remembered {memory : Bytes → Option ToolMemoryBlock}
    {block : ToolMemoryBlock} (hraw : a.rawDsml = some block.dsml) (hblock : block.dsml ≠ [])
    (hmemory : ∀ call ∈ a.calls, memory call.1 = some block) :
    Dsml.appendDsmlToolCallsText (toolMemoryAttach memory (r.replayedAnswer orders a)).calls =
      Dsml.appendDsmlToolCallsText a.toolCalls := by
  cases hcalls : a.calls with
  | nil =>
    simp [toolMemoryAttach, ResponsesRequest.replayedAnswer, Answer.toolCalls, hcalls,
      Dsml.appendDsmlToolCallsText]
  | cons call calls =>
    have hexact : exactBlock memory (a.calls.map Prod.fst) = some block := by
      rw [hcalls] at hmemory
      have hfirst := hmemory call mem_cons_self
      have hrest : ∀ other ∈ calls, memory other.1 = memory call.1 := by
        intro other hother
        rw [hfirst, hmemory other (mem_cons_of_mem _ hother)]
      simpa [hcalls, exactBlock, hfirst] using hrest
    have hattach : (toolMemoryAttach memory (r.replayedAnswer orders a)).calls =
        { (r.replayedAnswer orders a).msg.calls with rawDsml := some block.dsml } := by
      have hne : a.calls ≠ [] := by simp [hcalls]
      simp [toolMemoryAttach, hne, ResponsesRequest.replayedAnswer, hexact]
    obtain ⟨c, raw, hdsml⟩ := exists_cons_of_ne_nil hblock
    rw [hattach, Answer.toolCalls, hraw, hdsml]
    simp [Dsml.appendDsmlToolCallsText, ResponsesRequest.replayedAnswer, hcalls]

theorem last_of_due {think toolContext : Bool} {last : ℤ} {i : ℕ} {p : Pending}
    {msgs : List ChatMsg} {m : ChatMsg}
    (hdue : (renderMessages think toolContext last i p msgs).2.assistant = true)
    (hlast : msgs.getLast? = some m) : m.role ≠ .assistant := by
  intro hrole
  obtain ⟨init, rfl⟩ := getLast?_eq_some_iff.mp hlast
  obtain ⟨out, hout⟩ := renderMessages_concat_assistant think toolContext last i p init hrole
  rw [hout] at hdue
  cases hdue

/-- An answer and the items of the next request, as they have to be for the key:

* the first prompt asks for a turn, in a tool context if it asks for thinking,
* the answer is not empty, and reasoning that is shown comes with calls,
* the calls are replayed as they were sampled, and those of the history as before,
* the further items bring no system message, no tools, and no call in front of a message. -/
structure Replayable (r : ResponsesRequest) (memory memory' : Bytes → Option ToolMemoryBlock)
    (orders : Bytes → Option ToolSchemaOrder) (st : InputParse) (a : Answer)
    (more : List InputItem) : Prop where
  due : (renderHistory (r.messages memory st.msgs) (r.activeToolSchemas st.loadedToolSchemas)
    r.mode).2.assistant = true
  context : r.mode.enabled = true → chatHistoryUsesToolContext (r.messages memory st.msgs)
    (r.activeToolSchemas st.loadedToolSchemas) = true
  nonempty : a.content ≠ [] ∨ a.calls ≠ []
  reasoning : r.mode.enabled = true → r.reasoningSummaryEmit = true → a.reasoning ≠ [] →
    a.calls ≠ []
  calls :
    Dsml.appendDsmlToolCallsText (toolMemoryAttach memory' (r.replayedAnswer orders a)).calls =
      Dsml.appendDsmlToolCallsText a.toolCalls
  history : ∀ m ∈ st.msgs, toolMemoryAttach memory' m = toolMemoryAttach memory m
  behind : CallsBehindMessages more
  plain : ∀ item ∈ more, IsPlain item

theorem Replayable.parsed {memory memory' : Bytes → Option ToolMemoryBlock} {u : InputParse}
    {more : List InputItem} (h : Replayable r memory memory' orders (flushReasoning u) a more) :
    u = ⟨(flushReasoning u).msgs, [], (flushReasoning u).loadedToolSchemas⟩ ∧
      ∀ last, u.msgs.getLast? = some last → last.msg.role ≠ .assistant := by
  have hlast : ∀ last, (flushReasoning u).msgs.getLast? = some last →
      last.msg.role ≠ .assistant := by
    intro last hlast
    rw [← (toolMemoryAttach_fields memory last).1]
    apply last_of_due h.due
    simp [ResponsesRequest.messages, requestMessages, getLast?_append, hlast]
  have hpending : u.pendingReasoning = [] := by
    by_contra hne
    have hflush : (flushReasoning u).msgs.getLast? = some (assistantMsg [] u.pendingReasoning) := by
      simp [flushReasoning, hne, InputParse.push]
    exact hlast _ hflush rfl
  have hflush : flushReasoning u = u := by simp [flushReasoning, hpending]
  rw [hflush] at hlast
  refine ⟨?_, hlast⟩
  rw [hflush, ← hpending]

/-- The next request has the messages of the first, the replayed answer and more, and
asks with the same tools. -/
theorem Replayable.next {memory memory' : Bytes → Option ToolMemoryBlock}
    {before more : List InputItem} {st next : InputParse}
    (h : Replayable r memory memory' orders st a more)
    (hfirst : parseResponsesInput parseToolsValue before = some st)
    (hnext : parseResponsesInput parseToolsValue (before ++ (r.outputItems orders a ++ more)) =
      some next) :
    ∃ rest, next.msgs = st.msgs ++ [r.replayedAnswer orders a] ++ rest ∧
      next.loadedToolSchemas = st.loadedToolSchemas ∧
      ∀ m ∈ rest, m.msg.role.isSystem = false := by
  obtain ⟨u, hu, rfl⟩ := map_eq_some_iff.mp hfirst
  obtain ⟨hshape, hlast⟩ := h.parsed
  obtain ⟨v, hv, rfl⟩ := map_eq_some_iff.mp hnext
  rw [parseInputItems_append, hu, bind_some, parseInputItems_append] at hv
  obtain ⟨w, hw, hv⟩ := bind_eq_some_iff.mp hv
  generalize hst : flushReasoning u = st at h hshape ⊢
  rw [hshape] at hw hlast
  obtain rfl : w = _ := parseInputItems_outputItems hlast h.nonempty hw
  have halone := parseInputItems_behind parseToolsValue
    (st.msgs ++ [r.replayedAnswer orders a])
    (Or.inr h.behind : (⟨[], [], st.loadedToolSchemas⟩ : InputParse).msgs ≠ [] ∨ _)
  rw [InputParse.behind, append_nil, hv] at halone
  obtain ⟨v', hv', rfl⟩ := map_eq_some_iff.mp halone.symm
  have hstart : (⟨[], [], st.loadedToolSchemas⟩ : InputParse).Plain st.loadedToolSchemas :=
    ⟨rfl, by simp⟩
  have hplain := plain_flushReasoning (plain_parseInputItems hstart h.plain hv')
  rw [flushReasoning_behind]
  exact ⟨(flushReasoning v').msgs, rfl, hplain⟩

section Replayable

variable {parseToolsValue : Bytes → Option Bytes} {r : ResponsesRequest}
  {memory memory' : Bytes → Option ToolMemoryBlock} {orders : Bytes → Option ToolSchemaOrder}
  {st next : InputParse} {a : Answer} {more : List InputItem}

/-- Behind a turn that is due the replayed answer is the suffix, up to the thinking tag
the first prompt ends with. -/
theorem Replayable.renderMessage_replayed (h : Replayable r memory memory' orders st a more)
    {toolContext : Bool} (hcontext : r.mode.enabled = true → toolContext = true) (last : ℤ)
    (i : ℕ) {p : Pending} (hp : p.assistant = true) :
    (renderMessage r.mode.enabled toolContext last i p
        (toolMemoryAttach memory' (r.replayedAnswer orders a))).1 =
      assistantPrompt r.mode.enabled p ++ buildResponsesVisibleAssistantSuffix r a := by
  obtain ⟨hrole, hcontent, hreasoning⟩ :=
    toolMemoryAttach_fields memory' (r.replayedAnswer orders a)
  have hrole' : (toolMemoryAttach memory' (r.replayedAnswer orders a)).role = .assistant := hrole
  have hcontent' : (toolMemoryAttach memory' (r.replayedAnswer orders a)).content = a.content :=
    hcontent
  have hbody : assistantBody (toolMemoryAttach memory' (r.replayedAnswer orders a)) =
      a.content ++ Dsml.appendDsmlToolCallsText a.toolCalls ++ Tokenizer.eos := by
    rw [assistantBody, hcontent', h.calls]
  simp only [renderMessage, hrole', hp, if_true, hbody, assistantHead, assistantPrompt,
    buildResponsesVisibleAssistantSuffix]
  by_cases hthink : r.mode.enabled = true
  · have hshown : (toolMemoryAttach memory' (r.replayedAnswer orders a)).reasoning =
        if r.reasoningSummaryEmit = true ∧ a.calls ≠ [] then a.reasoning else [] := by
      rw [hreasoning]
      by_cases hemit : r.reasoningSummaryEmit = true
      · by_cases hcalls : a.calls = []
        · have hempty : a.reasoning = [] := by
            by_contra hne
            exact h.reasoning hthink hemit hne hcalls
          simp [ResponsesRequest.replayedAnswer, hempty]
        · simp [ResponsesRequest.replayedAnswer, hemit, hcalls]
      · simp [ResponsesRequest.replayedAnswer, hemit]
    simp only [hthink, hcontext hthink, hshown, if_true, Bool.true_or, append_assoc]
  · simp [hthink]

/-- The visible key of a Responses answer is a prefix of the next prompt. -/
theorem responsesKey_prefix {before : List InputItem}
    (h : Replayable r memory memory' orders st a more)
    (hfirst : parseResponsesInput parseToolsValue before = some st)
    (hnext : parseResponsesInput parseToolsValue (before ++ (r.outputItems orders a ++ more)) =
      some next) :
    r.promptText memory st ++ buildResponsesVisibleAssistantSuffix r a <+:
      r.promptText memory' next := by
  obtain ⟨rest, hmsgs, hschemas, hrest⟩ := h.next hfirst hnext
  have hhistory : st.msgs.map (toolMemoryAttach memory') = st.msgs.map (toolMemoryAttach memory) :=
    map_congr_left h.history
  have hmessages : r.messages memory' next.msgs = r.messages memory st.msgs ++
      toolMemoryAttach memory' (r.replayedAnswer orders a) ::
        rest.map (toolMemoryAttach memory') := by
    simp [ResponsesRequest.messages, requestMessages, hmsgs, hhistory]
  have hplain : ∀ m ∈ toolMemoryAttach memory' (r.replayedAnswer orders a) ::
      rest.map (toolMemoryAttach memory'), m.role.isSystem = false := by
    intro m hm
    rcases mem_cons.mp hm with rfl | hin
    · rw [(toolMemoryAttach_fields memory' _).1]
      rfl
    · obtain ⟨further, hfurther, rfl⟩ := List.mem_map.mp hin
      rw [(toolMemoryAttach_fields memory' further).1]
      exact hrest further hfurther
  have hcontext : ∀ more, r.mode.enabled = true → chatHistoryUsesToolContext
      (r.messages memory st.msgs ++ more) (r.activeToolSchemas st.loadedToolSchemas) = true :=
    fun more hmode => chatHistoryUsesToolContext_append (h.context hmode) more
  have hhead := promptHead_insert (r.messages memory st.msgs) []
    (r.activeToolSchemas st.loadedToolSchemas) r.mode hplain
  rw [append_nil, append_nil, ← hmessages] at hhead
  have hdue := h.due
  simp only [ResponsesRequest.promptText, renderChatPromptText, renderHistory, hschemas, hhead]
    at hdue ⊢
  have hbody : renderMessages r.mode.enabled (chatHistoryUsesToolContext
        (r.messages memory' next.msgs) (r.activeToolSchemas st.loadedToolSchemas))
        (lastUserIdx 0 (-1) (r.messages memory' next.msgs)) 0 .start (r.messages memory st.msgs) =
      renderMessages r.mode.enabled (chatHistoryUsesToolContext
        (r.messages memory st.msgs) (r.activeToolSchemas st.loadedToolSchemas))
        (lastUserIdx 0 (-1) (r.messages memory st.msgs)) 0 .start (r.messages memory st.msgs) := by
    apply renderMessages_settled
    intro hmode
    rw [hmessages]
    exact ⟨hcontext _ hmode, h.context hmode⟩
  have hpre := renderMessages_prefix r.mode.enabled (chatHistoryUsesToolContext
      (r.messages memory' next.msgs) (r.activeToolSchemas st.loadedToolSchemas))
    (lastUserIdx 0 (-1) (r.messages memory' next.msgs)) 0 .start (r.messages memory st.msgs)
    (toolMemoryAttach memory' (r.replayedAnswer orders a)) (rest.map (toolMemoryAttach memory'))
  have hlater : r.mode.enabled = true → chatHistoryUsesToolContext (r.messages memory' next.msgs)
      (r.activeToolSchemas st.loadedToolSchemas) = true := by
    intro hmode
    rw [hmessages]
    exact hcontext _ hmode
  rw [hbody, h.renderMessage_replayed hlater _ _ hdue, ← hmessages] at hpre
  simp only [append_assoc, prefix_append_right_inj]
  exact hpre.trans (prefix_append _ _)

end Replayable

def sampleRequest : ResponsesRequest where
  skills := []
  instructions := []
  toolSchemas := str "\x7b\x7d"
  toolChoiceNone := false
  mode := .high
  reasoningSummaryEmit := true

def sampleBefore : List InputItem :=
  [{ type := .message, role := some .user, content := some (str "Hi") }]

def sampleParse : InputParse := ⟨[⟨⟨.user, str "Hi", [], ⟨[], none⟩⟩, []⟩], [], []⟩

/-- An answer with a call, and its block. -/
def sampleBlock : ToolMemoryBlock := ⟨1, str "<calls>"⟩

def sampleAnswer : Answer where
  content := []
  reasoning := str "Look."
  calls := [(str "c", ⟨str "read", str "\x7b\x7d"⟩)]
  rawDsml := some sampleBlock.dsml
  finish := .toolCalls

def sampleMore : List InputItem :=
  [{ type := .functionCallOutput, callId := some (str "c"), output := some (str "ok") }]

def sampleMemory (id : Bytes) : Option ToolMemoryBlock :=
  if id = str "c" then some sampleBlock else none

def sampleNext : InputParse :=
  ⟨sampleParse.msgs ++
    [sampleRequest.replayedAnswer (fun _ => none) sampleAnswer, toolMsg (str "ok")], [], []⟩

theorem sampleReplayable :
    Replayable sampleRequest (fun _ => none) sampleMemory (fun _ => none) sampleParse sampleAnswer
      sampleMore where
  due := rfl
  context := fun _ => rfl
  nonempty := Or.inr (by simp [sampleAnswer])
  reasoning := fun _ _ _ => by simp [sampleAnswer]
  calls := by
    apply toolMemoryAttach_remembered rfl (by decide)
    simp [sampleAnswer, sampleMemory]
  history := by simp [sampleParse, toolMemoryAttach]
  behind := ⟨rfl, by simp [PassesThrough, ItemType.isBookkeeping]⟩
  plain := by simp [sampleMore, IsPlain, Role.isSystem]

theorem responsesKey_prefix_sample :
    sampleRequest.promptText (fun _ => none) sampleParse ++
        buildResponsesVisibleAssistantSuffix sampleRequest sampleAnswer <+:
      sampleRequest.promptText sampleMemory sampleNext :=
  have hfirst : parseResponsesInput some sampleBefore = some sampleParse := rfl
  responsesKey_prefix sampleReplayable hfirst rfl

/-- A final answer whose reasoning the client replays has a key without it. -/
def sampleFinal : Answer where
  content := str "ok"
  reasoning := str "r"
  calls := []
  rawDsml := none
  finish := .stop

/-- A call in the history and what it returned. -/
def sampleCalled : List InputItem :=
  [{ type := .functionCall, callId := some (str "c"), name := some (str "read") },
    { type := .functionCallOutput, callId := some (str "c"), output := some (str "ok") }]

theorem responsesKey_not_prefix :
    ¬ ∀ (parseToolsValue : Bytes → Option Bytes) (r : ResponsesRequest)
      (memory memory' : Bytes → Option ToolMemoryBlock) (orders : Bytes → Option ToolSchemaOrder)
      (before more : List InputItem) (a : Answer) (st next : InputParse),
      parseResponsesInput parseToolsValue before = some st →
      parseResponsesInput parseToolsValue (before ++ (r.outputItems orders a ++ more)) = some next →
      r.promptText memory st ++ buildResponsesVisibleAssistantSuffix r a <+:
        r.promptText memory' next := by
  intro hclaim
  have hprefix := hclaim some { sampleRequest with toolSchemas := [] } (fun _ => none)
    (fun _ => none) (fun _ => none) (sampleBefore ++ sampleCalled) [] sampleFinal _ _ rfl rfl
  revert hprefix
  decide +kernel

end Ds4Studio.Chat
