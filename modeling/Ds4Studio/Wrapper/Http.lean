import Ds4Studio.Json.Printed

/-!
What the wrapper hands on between its HTTP clients and the agent: the message of a chat
request, and the events that the agent publishes.
-/

namespace Ds4Studio.Wrapper

open Bytes Json Search

/-! ### Requests -/

/-- `MAX_BODY` -/
def maxBody : ℕ := 64 * 1024 * 1024

/-- `WRAP_JSON_STRING_MAX` -/
def wrapJsonStringMax : ℕ := maxBody

def sizeMax : ℕ := 2 ^ 64 - 1

/-- The room for two more bytes: the buffer as it is, or a larger one. -/
def grow (cap len : ℕ) : Option ℕ :=
  if len + 2 < cap then some cap
  else if cap ≥ wrapJsonStringMax + 1 then none
  else
    let doubled := if cap > sizeMax / 2 then wrapJsonStringMax + 1 else cap * 2
    let newCap := min doubled (wrapJsonStringMax + 1)
    if newCap ≤ cap then none else some newCap

/-- What a character behind a backslash stands for. -/
def unescape (c : UInt8) : Bytes :=
  if c = 0x6e then [0x0a]
  else if c = 0x72 then [0x0d]
  else if c = 0x74 then [0x09]
  else if c = 0x22 ∨ c = 0x5c ∨ c = 0x2f then [c]
  else [0x5c, c]

/-- The loop that copies a string up to its quote or the end of the text; `none` is a
failure, or a backslash at the end, behind which it would go on. -/
def copyString (cap : ℕ) (val : Bytes) : Bytes → Option Bytes
  | [] => some val
  | 0x22 :: _ => some val
  | 0x5c :: c :: rest =>
      match grow cap val.length with
      | none => none
      | some cap => copyString cap (val ++ unescape c) rest
  | [0x5c] => none
  | c :: rest =>
      match grow cap val.length with
      | none => none
      | some cap => copyString cap (val ++ [c]) rest

/-- `parse_json_string`, on a C string. -/
def parseJsonString (json : Bytes) (key : String) : Option Bytes :=
  let pattern := 0x22 :: (str key ++ [0x22])
  match find pattern json with
  | none => none
  | some i =>
    match (json.drop (i + pattern.length)).dropWhile (· ≠ 0x3a) with
    | [] => none
    | _ :: rest =>
      match skipWs rest with
      | 0x22 :: rest => copyString 256 [] rest
      | _ => none

/-- The text that a chat request hands to the agent. -/
def chatMessage (body : Bytes) : Option Bytes := parseJsonString (cstr body) "message"

/-! ### Events -/

inductive EventType where
  | text
  | reasoning
  | toolCall
  | toolResult
  | status
  | usage
  | done
  | error
  | sageStatus
  | sageArtifact
  deriving DecidableEq, Repr

def agentEventName : EventType → Bytes
  | .text => str "agent_text"
  | .reasoning => str "agent_reasoning"
  | .toolCall => str "agent_tool_call"
  | .toolResult => str "agent_tool_result"
  | .status => str "agent_status"
  | .usage => str "agent_usage"
  | .done => str "agent_done"
  | .error => str "agent_error"
  | .sageStatus => str "agent_sage_status"
  | .sageArtifact => str "agent_sage_artifact"

structure AgentEvent where
  type : EventType
  jsonPayload : Bytes

def escapeByte (c : UInt8) : Bytes :=
  if c = 0x22 then [0x5c, 0x22]
  else if c = 0x5c then [0x5c, 0x5c]
  else if c = 0x0a then [0x5c, 0x6e]
  else if c = 0x0d then [0x5c, 0x72]
  else if c = 0x09 then [0x5c, 0x74]
  else if c < 0x20 then [0x5c, 0x75, 0x30, 0x30, hexDigit (c >>> 4), hexDigit (c &&& 15)]
  else [c]

/-- `json_escape_into`, behind the `w` bytes that are written. -/
def jsonEscapeInto (cap w : ℕ) : Bytes → Bytes
  | [] => []
  | c :: rest =>
      if w + 6 < cap then
        escapeByte c ++ jsonEscapeInto cap (w + (escapeByte c).length) rest
      else []

def isLetter (c : UInt8) : Bool := (0x41 ≤ c && c ≤ 0x5a) || (0x61 ≤ c && c ≤ 0x7a)

/-- `strip_ansi`; the flag: the loop looks for the letter that ends a sequence. -/
def stripAnsi : Bool → Bytes → Bytes
  | _, [] => []
  | true, c :: rest => stripAnsi (!isLetter c) rest
  | false, 0x1b :: 0x5b :: rest => stripAnsi true rest
  | false, c :: rest => c :: stripAnsi false rest

/-- The type of an event, from the worker's current one. -/
def eventType (current : ℕ) : EventType :=
  if current = 1 then .reasoning
  else if current = 2 then .toolCall
  else if current = 3 then .toolResult
  else if current = 4 then .status
  else if current = 5 then .sageStatus
  else if current = 6 then .sageArtifact
  else .text

def contentPayload (clean : Bytes) : Bytes :=
  let cap := clean.length * 6 + 64
  let head := str "\x7b\"content\":\""
  head ++ jsonEscapeInto (cap - head.length) 0 clean ++ str "\"\x7d"

/-- `runtime_publish_cb` -/
def runtimePublish (current : ℕ) (s : Bytes) : Option AgentEvent :=
  if s = [] then none
  else
    let clean := cstr (stripAnsi false s)
    if clean = [] then none
    else if current = 5 ∨ current = 6 then some ⟨eventType current, clean⟩
    else some ⟨eventType current, contentPayload clean⟩

/-- The size of the buffer of an event. -/
def sseSize : ℕ := 8192

def formatted (ev : AgentEvent) : Bytes :=
  str "event: " ++ agentEventName ev.type ++ str "\ndata: " ++ ev.jsonPayload ++ str "\n\n"

/-- The bytes that are sent for an event: as many as the whole text has, out of the buffer
and what lies `behind` it. -/
def chatEventCb (behind : ℕ → UInt8) (ev : AgentEvent) : Bytes :=
  let text := formatted ev
  let len := text.length
  if len < sseSize then text
  else text.take (sseSize - 1) ++ 0 :: (List.range (len - sseSize)).map behind

/-- The stream that a client gets for what the agent publishes. -/
def chatStream (behind : ℕ → UInt8) (published : List (ℕ × Bytes)) : Bytes :=
  published.flatMap fun p =>
    match runtimePublish p.1 p.2 with
    | none => []
    | some ev => chatEventCb behind ev

end Ds4Studio.Wrapper
