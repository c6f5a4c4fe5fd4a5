import Ds4Studio.Dsml.Parse
import Ds4Studio.Tokenizer.Bpe

/-!
How far a stream may read. The three structured streams look at the whole
generated text each time and keep a cursor of what they have sent. In front of
the closing thinking tag everything is reasoning, behind it everything is content
up to the first tool marker. What may still turn into part of a tag, a marker or
a character is held back.

The text is a buffer with a terminator behind it: searches stop at the first zero
byte and find nothing behind the end.
-/

namespace Ds4Studio.Stream

open Bytes Search

def byteAt (raw : Bytes) (i : ℕ) : UInt8 := raw.getD i 0

/-- The bytes from one position up to another. -/
def slice (raw : Bytes) (start limit : ℕ) : Bytes := (raw.drop start).take (limit - start)

/-- `strstr` from a position of the buffer on, as a position of the buffer. -/
def strstrFrom (raw : Bytes) (start : ℕ) (pat : Bytes) : Option ℕ :=
  (find pat (cstr (raw.drop start))).map (· + start)

/-- What a client reads of a text that `json_escape_n` writes. -/
def wireText (text : Bytes) : Bytes := cstr text

/-! ### Characters -/

def utf8ExpectedLen (c : UInt8) : ℕ :=
  if c < 0x80 then 1
  else if 0xc2 ≤ c ∧ c ≤ 0xdf then 2
  else if 0xe0 ≤ c ∧ c ≤ 0xef then 3
  else if 0xf0 ≤ c ∧ c ≤ 0xf4 then 4
  else 1

def isContinuation (c : UInt8) : Bool := c &&& 0xc0 = 0x80

/-- Steps back over at most the given number of continuation bytes. -/
def continuationBack (raw : Bytes) (start : ℕ) : ℕ → ℕ → ℕ
  | 0, p => p
  | n + 1, p =>
      if p > start ∧ isContinuation (byteAt raw (p - 1)) then continuationBack raw start n (p - 1)
      else p

/-- A limit that does not end inside a character. -/
def utf8StreamSafeLen (raw : Bytes) (start limit : ℕ) (final : Bool) : ℕ :=
  if final = true ∨ limit ≤ start then limit
  else
    let p := continuationBack raw start 4 limit
    if p = limit then
      if utf8ExpectedLen (byteAt raw (limit - 1)) > 1 then limit - 1 else limit
    else if p = start ∧ isContinuation (byteAt raw p) then start
    else if limit - (p - 1) < utf8ExpectedLen (byteAt raw (p - 1)) then p - 1
    else limit

/-! ### Tool markers -/

/-- The earliest marker of any spelling. -/
def findAnyToolStart (raw : Bytes) (start : ℕ) : Option ℕ :=
  earliest ([Dsml.dsml, Dsml.dsmlShort, Dsml.plain].map fun x => strstrFrom raw start x.toolCallsStart)

/-- `trim_tool_separator_ws` -/
def trimSeparator (raw : Bytes) (start : ℕ) : ℕ → ℕ
  | 0 => 0
  | n + 1 => if start < n + 1 ∧ isSpace (byteAt raw n) then trimSeparator raw start n else n + 1

/-- The last place of a byte in front of a position and not in front of another. -/
def byteBack (c : UInt8) (raw : Bytes) (scan : ℕ) : ℕ → Option ℕ
  | 0 => none
  | n + 1 =>
      if scan < n + 1 then
        if byteAt raw n = c then some n else byteBack c raw scan n
      else none

/-- White space at the end and a marker that may have begun are held back. -/
def holdMarker (raw : Bytes) (start rawLen : ℕ) : ℕ :=
  let limit := trimSeparator raw start rawLen
  let scan := if rawLen - start > 80 then rawLen - 80 else start
  let limit := match byteBack 0x3c raw scan rawLen with
    | some marker => if marker < limit then marker else limit
    | none => limit
  trimSeparator raw start limit

def textStreamSafeLimit (raw : Bytes) (start rawLen : ℕ) (hasTools final : Bool) : ℕ :=
  if rawLen ≤ start then rawLen
  else
    match hasTools, findAnyToolStart raw start with
    | true, some tool => utf8StreamSafeLen raw start (trimSeparator raw start tool) true
    | true, none =>
        utf8StreamSafeLen raw start (if final then rawLen else holdMarker raw start rawLen) final
    | false, _ => utf8StreamSafeLen raw start rawLen final

/-! ### The cursor -/

inductive Mode where
  | thinking | text | tool | suppress
deriving DecidableEq

structure Cursor where
  mode : Mode
  emitPos : ℕ
  checkedThinkPrefix : Bool

/-- What a branch of an update reads: the bytes to send and where they stand, the
cursor behind them, and where the tag starts that ends the branch. -/
structure Reading where
  start : ℕ
  limit : ℕ
  delta : Bytes
  cur : Cursor
  tag : Option ℕ

/-- The update waits for more text while what it has may be an opening tag. -/
def waitsForThinkPrefix (cur : Cursor) (raw : Bytes) (rawLen : ℕ) (final : Bool) : Bool :=
  !cur.checkedThinkPrefix && rawLen < Tokenizer.thinkStart.length &&
    (cstr raw).take rawLen = Tokenizer.thinkStart.take rawLen && !final

/-- An opening tag that the model repeats is not sent. -/
def skipThinkPrefix (cur : Cursor) (raw : Bytes) (rawLen : ℕ) : ℕ :=
  if !cur.checkedThinkPrefix && Tokenizer.thinkStart.length ≤ rawLen &&
    Tokenizer.thinkStart.isPrefixOf raw then Tokenizer.thinkStart.length
  else cur.emitPos

def thinkingLimit (raw : Bytes) (start rawLen : ℕ) (final : Bool) (close : Option ℕ) : ℕ :=
  match close with
  | some i => i
  | none =>
      if final then rawLen
      else
        utf8StreamSafeLen raw start
          (if rawLen > Tokenizer.thinkEnd.length - 1 then rawLen - (Tokenizer.thinkEnd.length - 1)
          else start) false

/-- The thinking branch of the updates. -/
def readThinking (cur : Cursor) (raw : Bytes) (rawLen : ℕ) (final : Bool) : Reading :=
  if waitsForThinkPrefix cur raw rawLen final then ⟨cur.emitPos, cur.emitPos, [], cur, none⟩
  else
    let start := skipThinkPrefix cur raw rawLen
    let close := strstrFrom raw start Tokenizer.thinkEnd
    let limit := thinkingLimit raw start rawLen final close
    { start := start
      limit := limit
      delta := slice raw start limit
      cur :=
        match close with
        | some i => ⟨.text, i + Tokenizer.thinkEnd.length, true⟩
        | none => ⟨if final then .suppress else .thinking, max start limit, true⟩
      tag := close }

/-- The text branch of the updates; what follows a tool marker is left to them. -/
def readText (cur : Cursor) (raw : Bytes) (rawLen : ℕ) (hasTools final : Bool) : Reading :=
  let tool := if hasTools then findAnyToolStart raw cur.emitPos else none
  let limit := textStreamSafeLimit raw cur.emitPos rawLen hasTools final
  { start := cur.emitPos
    limit := limit
    delta := slice raw cur.emitPos limit
    cur :=
      match tool with
      | some i => ⟨.suppress, i, cur.checkedThinkPrefix⟩
      | none => ⟨if final then .suppress else .text, max cur.emitPos limit, cur.checkedThinkPrefix⟩
    tag := tool }

end Ds4Studio.Stream
