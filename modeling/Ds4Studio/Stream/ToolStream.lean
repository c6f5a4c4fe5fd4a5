import Ds4Studio.Stream.Cursor

/-!
Tool calls while they are generated. Behind a tool marker the OpenAI and the
Anthropic stream read the block tag by tag and translate it into the pieces of an
argument object. Both run the same machine; what they write for its steps differs.

The machine never looks behind the length it is given, so a turn of it is a
function of the unread text in front of that length.
-/

namespace Ds4Studio.Stream

open Bytes Search Json Dsml

inductive ToolState where
  | betweenInvokes | betweenParams | paramValue | done | error
deriving DecidableEq

/-- `openai_tool_stream` and `anthropic_tool_stream`, without the identifiers of the
calls. -/
structure ToolStream where
  active : Bool
  state : ToolState
  syn : Spelling
  parsePos : ℕ
  index : ℕ
  emittedAny : Bool
  argsOpen : Bool
  firstParam : Bool
  paramIsString : Bool

/-- The tool projection of a new stream is all zero. -/
def ToolStream.idle : ToolStream where
  active := false
  state := .betweenInvokes
  syn := dsml
  parsePos := 0
  index := 0
  emittedAny := false
  argsOpen := false
  firstParam := false
  paramIsString := false

/-- What a step of the machine has to be written for. -/
inductive ToolEvent where
  | start (index : ℕ) (name : Bytes)
  | args (index : ℕ) (text : Bytes)
  | stop (index : ℕ)

def rawPartialLit (w lit : Bytes) : Bool := w.length < lit.length && w.isPrefixOf lit

/-- An empty fragment is not sent. -/
def argsFragment (ts : ToolStream) (text : Bytes) : List ToolEvent :=
  if text = [] then [] else [.args ts.index (wireText text)]

/-! ### Values -/

/-- An entity that may have begun is held back. -/
def dsmlEntityStreamSafeLen (w : Bytes) (limit : ℕ) : ℕ :=
  match byteBack 0x26 w (limit - 6) limit with
  | some amp =>
      if entities.any fun e => limit - amp < e.1.length && ((w.take limit).drop amp).isPrefixOf e.1
      then amp else limit
  | none => limit

/-- A closing tag, an entity or a character that may have begun is held back. -/
def toolParamValueStreamSafeLen (w paramEnd : Bytes) (isString : Bool) : ℕ :=
  let limit := match byteBack 0x3c w (w.length - paramEnd.length) w.length with
    | some marker =>
        if w.length - marker < paramEnd.length ∧ w.drop marker <+: paramEnd then marker
        else w.length
    | none => w.length
  let limit := if isString then dsmlEntityStreamSafeLen w limit else limit
  utf8StreamSafeLen w 0 limit false

/-- Part of the value of a parameter. -/
def emitValue (ts : ToolStream) (text : Bytes) : List ToolEvent :=
  if text = [] then []
  else
    argsFragment ts
      (if ts.paramIsString then jsonEscapeFragment (dsmlUnescapeText (cstr text)) else text)

/-! ### Turns -/

/-- What one turn of the loop leaves; `again` says that the loop goes on. -/
structure Turn where
  ts : ToolStream
  rest : Bytes
  events : List ToolEvent
  again : Bool

def toolStreamInit (raw : Bytes) (rawLen pos : ℕ) : Option ToolStream :=
  ([dsml, dsmlShort, plain].find? fun x => x.toolCallsStart <+: slice raw pos rawLen).map fun x =>
    { active := true
      state := .betweenInvokes
      syn := x
      parsePos := pos + x.toolCallsStart.length
      index := 0
      emittedAny := false
      argsOpen := false
      firstParam := false
      paramIsString := false }

def toolStreamFail (ts : ToolStream) (w : Bytes) : Turn :=
  ⟨{ ts with active := false, state := .error }, w, [], false⟩

/-- The tag in front up to its closing bracket, and the text behind it. -/
def tagAt (w : Bytes) : Option (Bytes × Bytes) := (cut [0x3e] w).map fun r => (r.1 ++ [0x3e], r.2)

def toolStartInvoke (ts : ToolStream) (w : Bytes) : Turn :=
  match tagAt w with
  | none => ⟨ts, w, [], false⟩
  | some (tag, rest) =>
    match dsmlAttr (cstr tag) (str "name") with
    | none => toolStreamFail ts w
    | some name =>
        { ts := { ts with
            emittedAny := true, argsOpen := true, firstParam := true, state := .betweenParams }
          rest := rest
          events := .start ts.index name :: argsFragment ts (str "\x7b")
          again := true }

/-- `openai_tool_emit_param_prefix` and `anthropic_tool_emit_param_prefix` -/
def emitParamPrefix (ts : ToolStream) (name : Bytes) (isString : Bool) : List ToolEvent :=
  argsFragment ts ((if ts.firstParam then [] else str ",") ++ jsonEscape name ++ str ":" ++
    if isString then str "\"" else [])

def toolStartParam (ts : ToolStream) (w : Bytes) : Turn :=
  match tagAt w with
  | none => ⟨ts, w, [], false⟩
  | some (tag, rest) =>
    match dsmlAttr (cstr tag) (str "name"), dsmlAttr (cstr tag) (str "string") with
    | some name, some isString =>
        { ts := { ts with
            firstParam := false, paramIsString := isString = str "true", state := .paramValue }
          rest := rest
          events := emitParamPrefix ts name (isString = str "true")
          again := true }
    | _, _ => toolStreamFail ts w

/-- The value is complete. -/
def toolFinishParam (ts : ToolStream) (value rest : Bytes) : Turn where
  ts := { ts with state := .betweenParams }
  rest := rest
  events := emitValue ts value ++ if ts.paramIsString then argsFragment ts (str "\"") else []
  again := true

def betweenInvokesTurn (ts : ToolStream) (w : Bytes) : Turn :=
  let w := skipWs w
  if w = [] then ⟨ts, w, [], false⟩
  else if ts.syn.toolCallsEnd <+: w then
    ⟨{ ts with active := false, state := .done }, w.drop ts.syn.toolCallsEnd.length, [], false⟩
  else if rawPartialLit w ts.syn.toolCallsEnd || rawPartialLit w ts.syn.invokeStart then
    ⟨ts, w, [], false⟩
  else if ts.syn.invokeStart <+: w then toolStartInvoke ts w
  else toolStreamFail ts w

def betweenParamsTurn (ts : ToolStream) (w : Bytes) : Turn :=
  let w := skipWs w
  if w = [] then ⟨ts, w, [], false⟩
  else if ts.syn.invokeEnd <+: w then
    { ts := { ts with argsOpen := false, index := ts.index + 1, state := .betweenInvokes }
      rest := w.drop ts.syn.invokeEnd.length
      events := (if ts.argsOpen then argsFragment ts (str "\x7d") else []) ++ [.stop ts.index]
      again := true }
  else if rawPartialLit w ts.syn.invokeEnd || rawPartialLit w ts.syn.paramStart then
    ⟨ts, w, [], false⟩
  else if ts.syn.paramStart <+: w then toolStartParam ts w
  else toolStreamFail ts w

def paramValueTurn (ts : ToolStream) (w : Bytes) : Turn :=
  match cut ts.syn.paramEnd w with
  | some (value, rest) => toolFinishParam ts value rest
  | none =>
      let limit := toolParamValueStreamSafeLen w ts.syn.paramEnd ts.paramIsString
      ⟨ts, w.drop limit, emitValue ts (w.take limit), false⟩

def toolTurn (ts : ToolStream) (w : Bytes) : Turn :=
  match ts.state with
  | .betweenInvokes => betweenInvokesTurn ts w
  | .betweenParams => betweenParamsTurn ts w
  | .paramValue => paramValueTurn ts w
  | .done | .error => ⟨ts, w, [], false⟩

/-- The loop of the update; a turn that goes on has read a tag, so the number of
unread bytes bounds the turns. -/
def toolLoop : ℕ → ToolStream → Bytes → ToolStream × Bytes × List ToolEvent
  | 0, ts, w => (ts, w, [])
  | fuel + 1, ts, w =>
      if ts.active = true ∧ w ≠ [] then
        let turn := toolTurn ts w
        if turn.again then
          let run := toolLoop fuel turn.ts turn.rest
          (run.1, run.2.1, turn.events ++ run.2.2)
        else (turn.ts, turn.rest, turn.events)
      else (ts, w, [])

/-- `openai_tool_stream_update` and `anthropic_tool_stream_update` -/
def toolStreamUpdate (ts : ToolStream) (raw : Bytes) (rawLen : ℕ) : ToolStream × List ToolEvent :=
  if ts.parsePos < rawLen then
    let w := slice raw ts.parsePos rawLen
    let run := toolLoop w.length ts w
    ({ run.1 with parsePos := rawLen - run.2.1.length }, run.2.2)
  else (ts, [])

end Ds4Studio.Stream
