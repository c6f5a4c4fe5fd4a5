import Ds4Studio.Stream.Cursor

/-!
The event stream of the Responses API. Every event has a number. An output item,
the reasoning, the message or a call, is added when its first bytes are sent and
done when the stream finishes; the last event repeats every item.
-/

namespace Ds4Studio.Stream

open Bytes Json

/-! ### Events -/

/-- What the schema of a tool says about its calls on the wire. -/
structure ToolSchemaOrder where
  name : Bytes
  wireName : Option Bytes
  space : Option Bytes
  responsesToolSearch : Bool

structure ResponsesRequest where
  hasTools : Bool
  reasoningSummaryEmit : Bool
  toolOrders : List ToolSchemaOrder

inductive Finish where
  | stop | length | toolCalls | error
deriving DecidableEq

/-- The two items that are sent as text. -/
inductive TextItem where
  | reasoning | message
deriving DecidableEq

inductive Item where
  | text (k : TextItem)
  | functionCall (position : ℕ) (name : Bytes) (space : Option Bytes)
  | toolSearchCall (position : ℕ)
deriving DecidableEq

/-- An entry of the output the terminal event carries. -/
structure Output where
  item : Item
  text : Bytes
  completed : Bool
deriving DecidableEq

inductive Body where
  | created
  | itemAdded (item : Item) (index : ℤ)
  | partAdded (item : Item) (index : ℤ)
  | delta (item : Item) (index : ℤ) (text : Bytes)
  | textDone (item : Item) (index : ℤ) (text : Bytes)
  | partDone (item : Item) (index : ℤ) (text : Bytes)
  | itemDone (item : Item) (index : ℤ) (text : Bytes) (completed : Bool)
  | completed (finish : Finish) (output : List Output)
deriving DecidableEq

structure Event where
  sequence : ℕ
  body : Body

def Body.item? : Body → Option Item
  | .created => none
  | .itemAdded item _ => some item
  | .partAdded item _ => some item
  | .delta item _ _ => some item
  | .textDone item _ _ => some item
  | .partDone item _ _ => some item
  | .itemDone item _ _ _ => some item
  | .completed _ _ => none

def Body.index? : Body → Option ℤ
  | .created => none
  | .itemAdded _ index => some index
  | .partAdded _ index => some index
  | .delta _ index _ => some index
  | .textDone _ index _ => some index
  | .partDone _ index _ => some index
  | .itemDone _ index _ _ => some index
  | .completed _ _ => none

def Body.deltaText : Body → Bytes
  | .delta _ _ text => text
  | _ => []

/-- The whole text of an item, where an event carries it. -/
def Body.wholeText? : Body → Option Bytes
  | .textDone _ _ text => some text
  | .partDone _ _ text => some text
  | .itemDone _ _ text _ => some text
  | _ => none

def Body.isMiddle : Body → Bool
  | .partAdded _ _ | .delta _ _ _ | .textDone _ _ _ | .partDone _ _ _ => true
  | _ => false

/-! ### The stream -/

/-- What the stream keeps of a text item: whether the item and its part have been
announced, whether the item is done, its text so far and its output index. -/
structure TextState where
  opened : Bool
  partStarted : Bool
  closed : Bool
  emittedAny : Bool
  text : Bytes
  index : ℤ

structure ResponsesStream where
  cur : Cursor
  active : Bool
  reasoningClosedNaturally : Bool
  /-- The fields named after the reasoning and after the message. -/
  item : TextItem → TextState
  nextOutputIndex : ℤ
  sequence : ℕ
  /-- The events written to the socket. -/
  sent : List Event

def responsesStreamInit (think : Bool) : ResponsesStream where
  cur := ⟨if think then .thinking else .text, 0, false⟩
  active := false
  reasoningClosedNaturally := false
  item := fun _ => ⟨false, false, false, false, [], -1⟩
  nextOutputIndex := 0
  sequence := 0
  sent := []

/-- `responses_sse_emit_event` -/
def ResponsesStream.emit (st : ResponsesStream) (body : Body) : ResponsesStream :=
  { st with sequence := st.sequence + 1, sent := st.sent ++ [⟨st.sequence, body⟩] }

def ResponsesStream.set (st : ResponsesStream) (k : TextItem) (s : TextState) : ResponsesStream :=
  { st with item := Function.update st.item k s }

/-- The stream of a request once the response is announced. -/
def responsesStart (think : Bool) : ResponsesStream :=
  { responsesStreamInit think with active := true }.emit .created

def openItem (k : TextItem) (st : ResponsesStream) : ResponsesStream :=
  if (st.item k).opened then st
  else
    ({ st with nextOutputIndex := st.nextOutputIndex + 1 }.set k
      { st.item k with index := st.nextOutputIndex, opened := true }).emit
        (.itemAdded (.text k) st.nextOutputIndex)

def openPart (k : TextItem) (st : ResponsesStream) : ResponsesStream :=
  if (st.item k).partStarted then st
  else
    (st.set k { st.item k with partStarted := true }).emit
      (.partAdded (.text k) (st.item k).index)

/-- The item and its part are announced with the first text that is sent. -/
def sendText (k : TextItem) (st : ResponsesStream) (text : Bytes) : ResponsesStream :=
  let st := openPart k (openItem k st)
  (st.emit (.delta (.text k) (st.item k).index (wireText text))).set k
    { st.item k with text := (st.item k).text ++ text, emittedAny := true }

def thinkingBranch (r : ResponsesRequest) (st : ResponsesStream) (raw : Bytes) (rawLen : ℕ)
    (final : Bool) : ResponsesStream :=
  let rd := readThinking st.cur raw rawLen final
  let st := if rd.delta ≠ [] ∧ r.reasoningSummaryEmit then sendText .reasoning st rd.delta else st
  { st with
    cur := rd.cur
    reasoningClosedNaturally := st.reasoningClosedNaturally || rd.tag.isSome }

def textBranch (r : ResponsesRequest) (st : ResponsesStream) (raw : Bytes) (rawLen : ℕ)
    (final : Bool) : ResponsesStream :=
  let rd := readText st.cur raw rawLen r.hasTools final
  let st := if rd.delta ≠ [] then sendText .message st rd.delta else st
  { st with cur := rd.cur }

def responsesSseStreamUpdate (r : ResponsesRequest) (st : ResponsesStream) (raw : Bytes)
    (rawLen : ℕ) (final : Bool) : ResponsesStream :=
  if !st.active then st
  else
    let st := if st.cur.mode = .thinking then thinkingBranch r st raw rawLen final else st
    if st.cur.mode = .text then textBranch r st raw rawLen final else st

/-- Reasoning is complete when its closing tag was seen, whatever ended the turn. -/
def responsesSseReasoningDone (st : ResponsesStream) : ResponsesStream :=
  let s := st.item .reasoning
  let st := st.emit (.textDone (.text .reasoning) s.index (wireText s.text))
  let st := if s.partStarted then
      st.emit (.partDone (.text .reasoning) s.index (wireText s.text)) else st
  st.emit (.itemDone (.text .reasoning) s.index (wireText s.text) st.reasoningClosedNaturally)

def responsesItemCompleted : Finish → Bool
  | .length | .error => false
  | _ => true

def responsesSseMessageDone (st : ResponsesStream) (finish : Finish) : ResponsesStream :=
  let s := st.item .message
  let st := st.emit (.textDone (.text .message) s.index (wireText s.text))
  let st := st.emit (.partDone (.text .message) s.index (wireText s.text))
  st.emit (.itemDone (.text .message) s.index (wireText s.text) (responsesItemCompleted finish))

def toolSchemaOrdersFind (orders : List ToolSchemaOrder) (name : Bytes) : Option ToolSchemaOrder :=
  orders.find? fun o => o.name = name

def responsesToolCallIsToolSearch (tc : Dsml.ToolCall) (order : Option ToolSchemaOrder) : Bool :=
  tc.name = str "tool_search" && order.all (·.responsesToolSearch)

/-- How call `i` appears on the wire. -/
def callItem (r : ResponsesRequest) (i : ℕ) (tc : Dsml.ToolCall) : Item :=
  let order := toolSchemaOrdersFind r.toolOrders tc.name
  if responsesToolCallIsToolSearch tc order then .toolSearchCall i
  else .functionCall i ((order.bind (·.wireName)).getD tc.name) (order.bind (·.space))

/-- The arguments of a call: the text of an object, as a string of a function call
and as a value of a tool search. -/
def callText (tc : Dsml.ToolCall) : Bytes := appendJsonObjectOrEmpty tc.arguments

/-- `responses_sse_function_call_arguments_done`: a tool search has no argument events. -/
def argumentsDone (st : ResponsesStream) (item : Item) (index : ℤ) (text : Bytes) :
    ResponsesStream :=
  match item with
  | .functionCall _ _ _ => (st.emit (.delta item index text)).emit (.textDone item index text)
  | _ => st

def sendCall (r : ResponsesRequest) (finish : Finish) (start : ℤ) (st : ResponsesStream) (i : ℕ)
    (tc : Dsml.ToolCall) : ResponsesStream :=
  let item := callItem r i tc
  let st := st.emit (.itemAdded item (start + i))
  let st := argumentsDone st item (start + i) (callText tc)
  st.emit (.itemDone item (start + i) (callText tc) (responsesItemCompleted finish))

def sendCalls (r : ResponsesRequest) (finish : Finish) (start : ℤ) :
    ℕ → ResponsesStream → List Dsml.ToolCall → ResponsesStream
  | _, st, [] => st
  | i, st, tc :: calls => sendCalls r finish start (i + 1) (sendCall r finish start st i tc) calls

def callOutputs (r : ResponsesRequest) (finish : Finish) : ℕ → List Dsml.ToolCall → List Output
  | _, [] => []
  | i, tc :: calls =>
      ⟨callItem r i tc, callText tc, responsesItemCompleted finish⟩ :: callOutputs r finish (i + 1) calls

/-- `responses_sse_completed` -/
def responsesSseCompleted (r : ResponsesRequest) (st : ResponsesStream)
    (calls : List Dsml.ToolCall) (finish : Finish) : ResponsesStream :=
  st.emit (.completed finish
    ((if (st.item .reasoning).emittedAny then
        [⟨.text .reasoning, wireText (st.item .reasoning).text, st.reasoningClosedNaturally⟩]
      else []) ++
      (if (st.item .message).emittedAny then
        [⟨.text .message, wireText (st.item .message).text, responsesItemCompleted finish⟩]
      else []) ++
      callOutputs r finish 0 calls))

def markClosed (k : TextItem) (st : ResponsesStream) : ResponsesStream :=
  st.set k { st.item k with closed := true }

def closeReasoning (st : ResponsesStream) : ResponsesStream :=
  if (st.item .reasoning).opened && !(st.item .reasoning).closed then
    markClosed .reasoning (responsesSseReasoningDone st)
  else st

/-- A tool block that could not be parsed is sent as text after all. -/
def flushRecovered (st : ResponsesStream) (raw : Bytes) (rawLen : ℕ) (recovered : Bool) :
    ResponsesStream :=
  if recovered && st.cur.emitPos < rawLen then
    { sendText .message st (slice raw st.cur.emitPos rawLen) with
      cur := { st.cur with emitPos := rawLen } }
  else st

def closeMessage (st : ResponsesStream) (finish : Finish) : ResponsesStream :=
  if (st.item .message).opened && !(st.item .message).closed then
    markClosed .message (responsesSseMessageDone st finish)
  else st

def responsesSseFinishLive (r : ResponsesRequest) (st : ResponsesStream) (raw : Bytes)
    (rawLen : ℕ) (recovered : Bool) (calls : List Dsml.ToolCall) (finish : Finish) :
    ResponsesStream :=
  let st := responsesSseStreamUpdate r st raw rawLen true
  let st := closeMessage (flushRecovered (closeReasoning st) raw rawLen recovered) finish
  let start := st.nextOutputIndex
  let st := { st with nextOutputIndex := start + calls.length }
  let st := sendCalls r finish start 0 st calls
  responsesSseCompleted r st calls finish

/-- The updates of a generation, each with the buffer and how much of it may be read. -/
def responsesUpdates (r : ResponsesRequest) : ResponsesStream → List (Bytes × ℕ) → ResponsesStream
  | st, [] => st
  | st, u :: updates =>
      responsesUpdates r (responsesSseStreamUpdate r st u.1 u.2 false) updates

end Ds4Studio.Stream
