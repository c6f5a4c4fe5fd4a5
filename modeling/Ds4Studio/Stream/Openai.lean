import Ds4Studio.Stream.Responses
import Ds4Studio.Stream.ToolStream

/-!
The event stream of the chat completions API. Reasoning and content are sent as they
are read, and tool calls as the projection reads them. Calls that the projection has
not sent at all are sent whole at the end.
-/

namespace Ds4Studio.Stream

open Bytes Json

/-- The chunks behind the one that announces the role. A delta that was read from the
generated text is noted with the place where it stands there, which is not sent. -/
inductive OpenaiEvent where
  | reasoning (place : ℕ × ℕ) (text : Bytes)
  | content (place : ℕ × ℕ) (text : Bytes)
  | toolCallStart (index : ℕ) (name : Bytes)
  | toolCallArgs (index : ℕ) (text : Bytes)
  | toolCalls (calls : List (Bytes × Bytes))
  | finish (finish : Finish)
deriving DecidableEq

structure OpenaiStream where
  active : Bool
  cur : Cursor
  sentReasoning : Bool
  sentContent : Bool
  tool : ToolStream
  sent : List OpenaiEvent

def openaiStreamStart (think : Bool) : OpenaiStream where
  active := true
  cur := ⟨if think then .thinking else .text, 0, false⟩
  sentReasoning := false
  sentContent := false
  tool := .idle
  sent := []

/-- One step of the tool projection on the wire. -/
def openaiToolEvent : ToolEvent → List OpenaiEvent
  | .start index name => [.toolCallStart index name]
  | .args index text => [.toolCallArgs index text]
  | .stop _ => []

def openaiThinkingBranch (st : OpenaiStream) (raw : Bytes) (rawLen : ℕ) (final : Bool) :
    OpenaiStream :=
  let rd := readThinking st.cur raw rawLen final
  if rd.delta ≠ [] then
    { st with
      cur := rd.cur
      sentReasoning := true
      sent := st.sent ++ [.reasoning (rd.start, rd.limit) (wireText rd.delta)] }
  else { st with cur := rd.cur }

/-- Behind a tool marker the projection starts, on the final update too. -/
def openaiTextBranch (hasTools : Bool) (st : OpenaiStream) (raw : Bytes) (rawLen : ℕ)
    (final : Bool) : OpenaiStream :=
  let rd := readText st.cur raw rawLen hasTools final
  let st := if rd.delta ≠ [] then
      { st with
        sentContent := true
        sent := st.sent ++ [.content (rd.start, rd.limit) (wireText rd.delta)] }
    else st
  match rd.tag with
  | some marker =>
      match toolStreamInit raw rawLen marker with
      | some ts => { st with tool := ts, cur := { rd.cur with mode := .tool } }
      | none => { st with cur := { rd.cur with mode := .suppress } }
  | none => { st with cur := rd.cur }

def openaiToolBranch (st : OpenaiStream) (raw : Bytes) (rawLen : ℕ) : OpenaiStream :=
  let run := toolStreamUpdate st.tool raw rawLen
  { st with
    tool := run.1
    sent := st.sent ++ run.2.flatMap openaiToolEvent
    cur := if run.1.active then st.cur else { st.cur with mode := .suppress } }

def openaiSseStreamUpdate (hasTools : Bool) (st : OpenaiStream) (raw : Bytes) (rawLen : ℕ)
    (final : Bool) : OpenaiStream :=
  if !st.active then st
  else
    let st := if st.cur.mode = .thinking then openaiThinkingBranch st raw rawLen final else st
    let st := if st.cur.mode = .text then openaiTextBranch hasTools st raw rawLen final else st
    if st.cur.mode = .tool then openaiToolBranch st raw rawLen else st

def openaiSseFinishLive (hasTools : Bool) (st : OpenaiStream) (raw : Bytes) (rawLen : ℕ)
    (calls : List Dsml.ToolCall) (finish : Finish) : OpenaiStream :=
  let st := openaiSseStreamUpdate hasTools st raw rawLen true
  let whole := if !calls.isEmpty && !st.tool.emittedAny then
      [OpenaiEvent.toolCalls (calls.map fun tc => (tc.name, appendJsonObjectOrEmpty tc.arguments))]
    else []
  { st with sent := st.sent ++ whole ++ [.finish finish] }

def openaiUpdates (hasTools : Bool) : OpenaiStream → List (Bytes × ℕ) → OpenaiStream
  | st, [] => st
  | st, u :: updates =>
      openaiUpdates hasTools (openaiSseStreamUpdate hasTools st u.1 u.2 false) updates

end Ds4Studio.Stream
