import Ds4Studio.Stream.Responses
import Ds4Studio.Stream.ToolStream

/-!
The event stream of the Messages API. The answer is a list of content blocks, a
block of thinking, one of text and one for each tool call, and one block is open
at a time. Opening a block fails while another one is open; a function that fails
ends the whole stream where it is.
-/

namespace Ds4Studio.Stream

open Bytes Json

/-- The kinds of content blocks. -/
inductive Block where
  | thinking | text | tool
deriving DecidableEq

inductive BlockDelta where
  | thinking (text : Bytes)
  | signature
  | text (text : Bytes)
  | inputJson (text : Bytes)

/-- The events behind `message_start`. A delta that was read from the generated text
is noted with the place where it stands there, which is not sent. -/
inductive AnthropicEvent where
  | contentBlockStart (index : ℕ) (block : Block) (name : Bytes)
  | contentBlockDelta (index : ℕ) (delta : BlockDelta) (place : Option (ℕ × ℕ))
  | contentBlockStop (index : ℕ)
  | messageDelta (finish : Finish)
  | messageStop

structure AnthropicStream where
  active : Bool
  cur : Cursor
  openBlock : Option Block
  nextIndex : ℕ
  sentThinking : Bool
  sentText : Bool
  tool : ToolStream
  sent : List AnthropicEvent

/-- The stream of a request once the message is announced. -/
def anthropicStart (think : Bool) : AnthropicStream where
  active := true
  cur := ⟨if think then .thinking else .text, 0, false⟩
  openBlock := none
  nextIndex := 0
  sentThinking := false
  sentText := false
  tool := .idle
  sent := []

/-- A stream and whether the function that left it succeeded. -/
abbrev AnthropicResult := AnthropicStream × Bool

def AnthropicResult.andThen (x : AnthropicResult) (f : AnthropicStream → AnthropicResult) :
    AnthropicResult :=
  if x.2 then f x.1 else x

def AnthropicStream.emit (st : AnthropicStream) (e : AnthropicEvent) : AnthropicStream :=
  { st with sent := st.sent ++ [e] }

/-- `anthropic_sse_open_block` and `anthropic_sse_open_tool_block` -/
def anthropicSseOpenBlock (block : Block) (name : Bytes) (st : AnthropicStream) : AnthropicResult :=
  if st.openBlock = some block then (st, true)
  else if st.openBlock ≠ none then (st, false)
  else ({ st.emit (.contentBlockStart st.nextIndex block name) with openBlock := some block }, true)

def anthropicSseCloseBlockLive (st : AnthropicStream) : AnthropicStream :=
  match st.openBlock with
  | none => st
  | some block =>
      let st := if block = .thinking then
        st.emit (.contentBlockDelta st.nextIndex .signature none) else st
      { st.emit (.contentBlockStop st.nextIndex) with
        openBlock := none
        nextIndex := st.nextIndex + 1 }

/-- One step of the tool projection on the wire. -/
def anthropicToolEvent (st : AnthropicStream) : ToolEvent → AnthropicResult
  | .start _ name => anthropicSseOpenBlock .tool name st
  | .args _ text => (st.emit (.contentBlockDelta st.nextIndex (.inputJson text) none), true)
  | .stop _ => (anthropicSseCloseBlockLive st, true)

def anthropicToolEvents : AnthropicStream → List ToolEvent → AnthropicResult
  | st, [] => (st, true)
  | st, e :: events => (anthropicToolEvent st e).andThen (anthropicToolEvents · events)

/-- `anthropic_tool_stream_update` -/
def anthropicToolUpdate (st : AnthropicStream) (raw : Bytes) (rawLen : ℕ) : AnthropicResult :=
  let run := toolStreamUpdate st.tool raw rawLen
  anthropicToolEvents { st with tool := run.1 } run.2

/-- The text between two places of the buffer as a delta of the open block. -/
def anthropicSseDeltaLive (block : Block) (rd : Reading) (st : AnthropicStream) : AnthropicStream :=
  st.emit (.contentBlockDelta st.nextIndex
    (if block = .thinking then .thinking (wireText rd.delta) else .text (wireText rd.delta))
    (some (rd.start, rd.limit)))

/-- What a branch has read is sent to its block. -/
def sendReading (block : Block) (rd : Reading) (st : AnthropicStream) : AnthropicResult :=
  if rd.delta ≠ [] then
    (anthropicSseOpenBlock block [] st).andThen fun st =>
      ({ anthropicSseDeltaLive block rd st with
        sentThinking := st.sentThinking || block = .thinking
        sentText := st.sentText || block = .text }, true)
  else (st, true)

def anthropicThinkingBranch (st : AnthropicStream) (raw : Bytes) (rawLen : ℕ) (final : Bool) :
    AnthropicResult :=
  let rd := readThinking st.cur raw rawLen final
  (sendReading .thinking rd st).andThen fun st =>
    if rd.tag.isSome ∨ final = true then
      ({ anthropicSseCloseBlockLive st with cur := rd.cur }, true)
    else ({ st with cur := rd.cur }, true)

def anthropicTextBranch (hasTools : Bool) (st : AnthropicStream) (raw : Bytes) (rawLen : ℕ)
    (final : Bool) : AnthropicResult :=
  let rd := readText st.cur raw rawLen hasTools final
  (sendReading .text rd st).andThen fun st =>
    match rd.tag with
    | some marker =>
        let st := anthropicSseCloseBlockLive st
        -- on the final update the block is left to the final emitter
        match if final then none else toolStreamInit raw rawLen marker with
        | some ts => ({ st with tool := ts, cur := { rd.cur with mode := .tool } }, true)
        | none => ({ st with cur := { rd.cur with mode := .suppress } }, true)
    | none =>
        if final then
          ({ anthropicSseCloseBlockLive st with cur := rd.cur }, true)
        else ({ st with cur := rd.cur }, true)

def anthropicToolBranch (st : AnthropicStream) (raw : Bytes) (rawLen : ℕ) : AnthropicResult :=
  (anthropicToolUpdate st raw rawLen).andThen fun st =>
    if st.tool.active then (st, true)
    else ({ st with cur := { st.cur with mode := .suppress } }, true)

/-- Runs a branch if the stream is in its mode. -/
def inMode (mode : Mode) (branch : AnthropicStream → AnthropicResult) (st : AnthropicStream) :
    AnthropicResult :=
  if st.cur.mode = mode then branch st else (st, true)

def anthropicSseStreamUpdate (hasTools : Bool) (st : AnthropicStream) (raw : Bytes) (rawLen : ℕ)
    (final : Bool) : AnthropicResult :=
  if !st.active then (st, true)
  else
    ((inMode .thinking (anthropicThinkingBranch · raw rawLen final) st).andThen
      (inMode .text (anthropicTextBranch hasTools · raw rawLen final))).andThen
      (inMode .tool (anthropicToolBranch · raw rawLen))

/-- A call that the projection has not sent, as a block of its own. -/
def toolBlockEvents (index : ℕ) (tc : Dsml.ToolCall) : List AnthropicEvent :=
  [.contentBlockStart index .tool tc.name,
    .contentBlockDelta index (.inputJson (appendJsonObjectOrEmpty tc.arguments)) none,
    .contentBlockStop index]

def anthropicSseToolBlocksLive (st : AnthropicStream) (calls : List Dsml.ToolCall) :
    AnthropicStream :=
  (calls.drop (if st.tool.emittedAny then st.tool.index else 0)).foldl (fun st tc =>
    { st with
      sent := st.sent ++ toolBlockEvents st.nextIndex tc
      nextIndex := st.nextIndex + 1 }) st

def anthropicSseStopLive (finish : Finish) (st : AnthropicStream) : AnthropicStream :=
  (st.emit (.messageDelta finish)).emit .messageStop

def anthropicSseFinishLive (hasTools : Bool) (st : AnthropicStream) (raw : Bytes) (rawLen : ℕ)
    (calls : List Dsml.ToolCall) (finish : Finish) : AnthropicResult :=
  ((anthropicSseStreamUpdate hasTools st raw rawLen true).andThen fun st =>
    if st.sentThinking && !st.sentText && calls.isEmpty then
      (anthropicSseOpenBlock .text [] st).andThen fun st => (anthropicSseCloseBlockLive st, true)
    else (st, true)).andThen fun st =>
      (anthropicSseStopLive finish (anthropicSseToolBlocksLive st calls), true)

/-- The updates of a generation, each with the buffer and how much of it may be
read; a failed update ends the generation. -/
def anthropicUpdates (hasTools : Bool) :
    AnthropicStream → List (Bytes × ℕ) → AnthropicResult
  | st, [] => (st, true)
  | st, u :: updates =>
      (anthropicSseStreamUpdate hasTools st u.1 u.2 false).andThen
        (anthropicUpdates hasTools · updates)

end Ds4Studio.Stream
