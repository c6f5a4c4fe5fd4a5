import Ds4Studio.Web.AgentSession

/-!
The messages of the web agent and their JSON, the Sage policy among them, and the tool
calls that a streamed response is made of.
-/

namespace Ds4Studio.Web

open Json List

structure ToolCall where
  id : JsString
  name : JsString
  arguments : JsString
  deriving DecidableEq

/-- A `report` is an assistant message that publishes an authoritative result of Sage. -/
inductive Message where
  | system (content : JsString)
  | user (content : JsString)
  | assistant (content reasoning : Option JsString) (toolCalls : List ToolCall)
  | report (content : JsString) (runId : Option JsString)
  | tool (content : JsString) (toolCallId name : Option JsString)
  | function (content : JsString) (toolCallId name : Option JsString)
  deriving DecidableEq

namespace Message

/-- `null` for a string that is missing. -/
def orNull : Option JsString → Value
  | none => .null
  | some s => .str s

/-- A member that is left out with its string. -/
def given (key : String) : Option JsString → List (JsString × Value)
  | none => []
  | some s => [(js key, .str s)]

def callValue (call : ToolCall) : Value :=
  .obj [(js "id", .str call.id), (js "type", .str (js "function")),
    (js "function", .obj [(js "name", .str call.name), (js "arguments", .str call.arguments)])]

def callsMember : List ToolCall → List (JsString × Value)
  | [] => []
  | calls => [(js "tool_calls", .arr (calls.map callValue))]

def members : Message → List (JsString × Value)
  | .system content => [(js "role", .str (js "system")), (js "content", .str content)]
  | .user content => [(js "role", .str (js "user")), (js "content", .str content)]
  | .assistant content reasoning toolCalls =>
      [(js "role", .str (js "assistant")), (js "content", orNull content)] ++
        (given "reasoning_content" reasoning ++ callsMember toolCalls)
  | .report content runId =>
      [(js "role", .str (js "assistant")), (js "content", .str content),
        (js "sageAuthoritative", .bool true), (js "sageRunId", orNull runId)]
  | .tool content toolCallId name =>
      (js "role", .str (js "tool")) :: (given "tool_call_id" toolCallId ++
        ((js "content", .str content) :: given "name" name))
  | .function content toolCallId name =>
      (js "role", .str (js "function")) :: (given "tool_call_id" toolCallId ++
        ((js "content", .str content) :: given "name" name))

def value (msg : Message) : Value := .obj msg.members

/-! ### Reading a message back -/

def readString : Value → Option JsString
  | .str s => some s
  | _ => none

def readCall (v : Value) : ToolCall where
  id := (readString (member v "id")).getD []
  name := (readString (member (member v "function") "name")).getD []
  arguments := (readString (member (member v "function") "arguments")).getD []

def readCalls : Value → List ToolCall
  | .arr calls => calls.map readCall
  | _ => []

def read (v : Value) : Message :=
  let role := member v "role"
  let content := readString (member v "content")
  let toolCallId := readString (member v "tool_call_id")
  let name := readString (member v "name")
  if isString role "system" then .system (content.getD [])
  else if isString role "user" then .user (content.getD [])
  else if isString role "tool" then .tool (content.getD []) toolCallId name
  else if isString role "function" then .function (content.getD []) toolCallId name
  else
    match member v "sageAuthoritative" with
    | .bool _ => .report (content.getD []) (readString (member v "sageRunId"))
    | _ => .assistant content (readString (member v "reasoning_content"))
        (readCalls (member v "tool_calls"))

theorem readCalls_stable (calls : List ToolCall) :
    readCalls (stable (.arr (calls.map callValue))) = calls := by
  induction calls with
  | nil => rfl
  | cons call rest ih =>
    change readCall (stable (callValue call)) :: _ = _
    exact congrArg₂ List.cons rfl ih

theorem given_keys (key : String) (s : Option JsString) :
    ((given key s).map Prod.fst).Sublist [js key] := by
  cases s with
  | none => exact nil_sublist _
  | some s => exact List.Sublist.refl _

theorem callsMember_keys (calls : List ToolCall) :
    ((callsMember calls).map Prod.fst).Sublist [js "tool_calls"] := by
  cases calls with
  | nil => exact nil_sublist _
  | cons call rest => exact List.Sublist.refl _

theorem answer_keys (role : String) (content : JsString) (toolCallId name : Option JsString) :
    (((js "role", Value.str (js role)) :: (given "tool_call_id" toolCallId ++
      ((js "content", Value.str content) :: given "name" name))).map Prod.fst).Sublist
      [js "role", js "tool_call_id", js "content", js "name"] := by
  rw [map_cons, map_append]
  exact ((given_keys _ _).append ((given_keys _ _).cons_cons _)).cons_cons _

theorem nodup_members (msg : Message) : (msg.members.map Prod.fst).Nodup := by
  have hanswer : [js "role", js "tool_call_id", js "content", js "name"].Nodup := by decide
  cases msg with
  | system content | user content => exact (by decide : [js "role", js "content"].Nodup)
  | assistant content reasoning toolCalls =>
    have hkeys : [js "role", js "content", js "reasoning_content", js "tool_calls"].Nodup := by
      decide
    refine hkeys.sublist ?_
    unfold members
    rw [map_append, map_append]
    exact (((given_keys _ _).append (callsMember_keys _)).cons_cons _).cons_cons _
  | report content runId =>
    exact (by decide :
      [js "role", js "content", js "sageAuthoritative", js "sageRunId"].Nodup)
  | tool content toolCallId name => exact hanswer.sublist (answer_keys _ _ _ _)
  | function content toolCallId name => exact hanswer.sublist (answer_keys _ _ _ _)

theorem read_stable (msg : Message) : read (stable msg.value) = msg := by
  have hmember := @member_stable _ msg.nodup_members
  unfold read value
  rw [hmember (by decide), hmember (by decide), hmember (by decide), hmember (by decide),
    hmember (by decide), hmember (by decide), hmember (by decide), hmember (by decide)]
  cases msg with
  | system content => rfl
  | user content => rfl
  | assistant content reasoning toolCalls =>
    cases toolCalls with
    | nil => cases content <;> cases reasoning <;> rfl
    | cons call rest =>
      have hcalls := readCalls_stable (call :: rest)
      cases content <;> cases reasoning <;> exact congrArg (Message.assistant _ _) hcalls
  | report content runId => cases runId <;> rfl
  | tool content toolCallId name => cases toolCallId <;> cases name <;> rfl
  | function content toolCallId name => cases toolCallId <;> cases name <;> rfl

theorem stable_injective : Function.Injective fun msg : Message => stable msg.value := by
  intro a b h
  rw [← read_stable a, ← read_stable b]
  exact congrArg read h

end Message

/-! ### The Sage policy -/

def sagePolicyBegin : JsString := js "<!-- ds4-sage-policy:start -->"

def sagePolicyEnd : JsString := js "<!-- ds4-sage-policy:end -->"

/-- `String.prototype.includes` -/
def includes (s part : JsString) : Bool := s.tails.any part.isPrefixOf

def Message.isSagePolicy : Message → Bool
  | .system content => includes content sagePolicyBegin
  | _ => false

def Message.isSystem : Message → Bool
  | .system _ => true
  | _ => false

/-- `prompt`: the trimmed policy where Sage is enabled. -/
def applySagePolicyToMessages (prompt : Option JsString) (messages : List Message) : List Message :=
  let clean := messages.filter fun msg => !msg.isSagePolicy
  match prompt with
  | none => clean
  | some prompt =>
    let policy := .system (sagePolicyBegin ++ js "\n" ++ prompt ++ js "\n" ++ sagePolicyEnd)
    let insertAt := match clean.findIdx? Message.isSystem with
      | some firstSystem => firstSystem + 1
      | none => 0
    clean.take insertAt ++ policy :: clean.drop insertAt

/-! ### Responses -/

/-- A part of a tool call in a stream; `none` stands for what is missing or empty. -/
structure ToolDelta where
  index : Option ℤ
  id : Option JsString
  name : Option JsString
  arguments : Option JsString

/-- The calls under way, in the order of their first parts. -/
def collectDelta (calls : List (ℤ × ToolCall)) (delta : ToolDelta) : List (ℤ × ToolCall) :=
  let idx := delta.index.getD calls.length
  let known :=
    if calls.any fun call => call.1 = idx then calls
    else calls ++ [(idx, { id := js s!"call_{idx}", name := [], arguments := [] })]
  known.map fun call =>
    if call.1 = idx then
      (idx,
        { id := delta.id.getD call.2.id
          name := delta.name.getD call.2.name
          arguments := call.2.arguments ++ delta.arguments.getD [] })
    else call

structure Response where
  content : JsString
  reasoning : JsString
  deltas : List ToolDelta
  finishReason : Option JsString

/-- JSON of JavaScript: what a text is read as, and what a value is printed as. -/
structure JsonText where
  parse : JsString → Option Value
  stringify : Value → JsString

/-- The calls of a response; arguments that cannot be read count as empty. -/
def Response.toolCalls (json : JsonText) (response : Response) : List ToolCall :=
  (response.deltas.foldl collectDelta []).map fun call =>
    let text := if call.2.arguments = [] then js "{}" else call.2.arguments
    { call.2 with arguments := json.stringify ((json.parse text).getD (.obj [])) }

def nonempty (s : JsString) : Option JsString := if s = [] then none else some s

def Response.message (json : JsonText) (response : Response) : Message :=
  .assistant (nonempty response.content) (nonempty response.reasoning)
    (response.toolCalls json)

def Response.isFinal (json : JsonText) (response : Response) : Bool :=
  (response.toolCalls json).isEmpty || response.finishReason != some (js "tool_calls")

/-! ### Tool calls -/

def ToolCall.isSage (call : ToolCall) : Bool := call.name == js "sage"

/-- Sage must be the only call of its response. -/
def sageToolBlockAllowed (calls : List ToolCall) : Bool :=
  !(calls.any ToolCall.isSage && calls.length != 1)

def sageMixedToolBlockForbidden : JsString := js "SAGE_MIXED_TOOL_BLOCK_FORBIDDEN"

/-- Tools that only read and may run side by side. -/
def safeParallel : List JsString := [js "read", js "list", js "search"]

/-- Calls that run together; `batch` is the group that is not finished. -/
def groupCalls (batch : List ToolCall) : List ToolCall → List (List ToolCall)
  | [] => if batch = [] then [] else [batch]
  | call :: rest =>
      if call.name ∈ safeParallel then groupCalls (batch ++ [call]) rest
      else (if batch = [] then [] else [batch]) ++ [call] :: groupCalls [] rest

end Ds4Studio.Web
