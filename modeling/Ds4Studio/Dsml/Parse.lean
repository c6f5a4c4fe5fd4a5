import Ds4Studio.Dsml.Markup
import Ds4Studio.Json.Args
import Mathlib.Data.List.DropRight

/-!
The final parser of generated text. It looks for a block of tool calls behind
the reasoning, reads its invocations one by one, and turns the parameters of an
invocation into an argument object. A parameter without a string attribute may
hold child parameters instead of text. Loops carry the number of bytes they may
still meet; every turn reads a tag, so the bound is never reached.
-/

namespace Ds4Studio.Dsml

open Bytes Search Json

structure ToolCall where
  name : Bytes
  arguments : Bytes
deriving DecidableEq, Repr

/-- What the parser returns when it does not fail. -/
structure Generated where
  content : Bytes
  reasoning : Option Bytes
  calls : List ToolCall
  rawDsml : Option Bytes
deriving DecidableEq, Repr

/-- A tag with its closing bracket, and the text behind it. -/
def openTag (start p : Bytes) : Option (Bytes × Bytes) :=
  if start <+: p then (cut [0x3e] p).map fun r => (r.1 ++ [0x3e], r.2) else none

def dsmlAttr (tag name : Bytes) : Option Bytes :=
  match cut (name ++ [0x3d, 0x22]) tag with
  | none => none
  | some (_, p) => (cut [0x22] p).map fun r => dsmlUnescapeText r.1

def toolCallJsonArgsAdd (args name value isString : Bytes) : Bytes :=
  (if args = [] then [] else args ++ str ", ") ++ jsonEscape name ++ str ": " ++
    if isString = str "true" then jsonEscape value
    else
      let min := jsonMinifyRawValue value
      if min = [] then str "null" else min

/-- The value of a parameter of the given type between its tags. -/
def paramValue (type raw : Bytes) : Bytes := if type = str "true" then dsmlUnescapeText raw else raw

def dsmlParseLeafParamJson (x : Spelling) (p out : Bytes) : Option (Bytes × Bytes) :=
  match openTag x.paramStart p with
  | none => none
  | some (tag, valueStart) =>
    match dsmlAttr tag (str "name") with
    | none => none
    | some name =>
      match cut x.paramEnd valueStart with
      | none => none
      | some (raw, rest) =>
        let type := (dsmlAttr tag (str "string")).getD (str "true")
        some (rest, toolCallJsonArgsAdd out name (paramValue type raw) type)

/-- The loop of `dsml_parse_nested_params_object`. -/
def nestedParamsLoop (x : Spelling) : ℕ → Bytes → Bytes → Option (Bytes × Bytes)
  | 0, _, _ => none
  | fuel + 1, p, members =>
      let p := skipWs p
      if x.paramStart <+: p then
        match dsmlParseLeafParamJson x p members with
        | none => none
        | some (p, members) => nestedParamsLoop x fuel p members
      else some (p, members)

/-- The object of the child parameters at the front, if there are any. -/
def dsmlParseNestedParamsObject (x : Spelling) (p : Bytes) : Option (Bytes × Bytes) :=
  match nestedParamsLoop x (p.length + 1) p [] with
  | none => none
  | some (p, members) => if members = [] then none else some (p, 0x7b :: members ++ [0x7d])

/-- One parameter of an invocation, added to its arguments. -/
def parseParam (x : Spelling) (p args : Bytes) : Option (Bytes × Bytes) :=
  match openTag x.paramStart p with
  | none => none
  | some (tag, valueStart) =>
    match dsmlAttr tag (str "name") with
    | none => none
    | some name =>
      let isString := dsmlAttr tag (str "string")
      if isString = none ∧ x.paramStart <+: skipWs valueStart then
        match dsmlParseNestedParamsObject x valueStart with
        | none => none
        | some (nestedP, nested) =>
          let p := skipWs nestedP
          some (if x.paramEnd <+: p then p.drop x.paramEnd.length else p,
            toolCallJsonArgsAdd args name nested (str "false"))
      else
        match cut x.paramEnd valueStart with
        | none => none
        | some (raw, rest) =>
          let type := isString.getD (str "true")
          some (rest, toolCallJsonArgsAdd args name (paramValue type raw) type)

/-- The parameters of an invocation up to its closing tag. -/
def paramsLoop (x : Spelling) : ℕ → Bytes → Bytes → Option (Bytes × Bytes)
  | 0, _, _ => none
  | fuel + 1, p, args =>
      let p := skipWs p
      if x.invokeEnd <+: p then some (p.drop x.invokeEnd.length, args)
      else
        match parseParam x p args with
        | none => none
        | some (p, args) => paramsLoop x fuel p args

/-- The invocations of a block up to its closing tag. -/
def invokesLoop (x : Spelling) : ℕ → Bytes → Option (Bytes × List ToolCall)
  | 0, _ => none
  | fuel + 1, p =>
      let p := skipWs p
      if x.toolCallsEnd <+: p then some (p.drop x.toolCallsEnd.length, [])
      else
        match openTag x.invokeStart p with
        | none => none
        | some (tag, p) =>
          match dsmlAttr tag (str "name") with
          | none => none
          | some name =>
            match paramsLoop x (p.length + 1) p [] with
            | none => none
            | some (p, args) =>
              (invokesLoop x fuel p).map fun r =>
                (r.1, ⟨name, 0x7b :: args ++ [0x7d]⟩ :: r.2)

def splitReasoningContent (s : Bytes) : Bytes × Option Bytes :=
  let body := if str "<think>" <+: s then s.drop (str "<think>").length else s
  match cut (str "</think>") body with
  | some (reasoning, content) => (content, some reasoning)
  | none => (s, none)

/-- The text in front of its trailing white space. -/
def trimToolSeparatorWs (s : Bytes) : Bytes := s.rdropWhile isSpace

/-- Where the first block of one spelling starts: at the separator in front of
it, if one occurs anywhere. -/
def blockStart (x : Spelling) (s : Bytes) : Option ℕ :=
  match find (str "\n\n" ++ x.toolCallsStart) s with
  | some i => some i
  | none => find x.toolCallsStart s

/-- The spellings in the order of preference, whatever their positions. -/
def findBlock (s : Bytes) : Option (ℕ × Spelling) :=
  match blockStart dsml s, blockStart dsmlShort s, blockStart plain s with
  | some i, _, _ => some (i, dsml)
  | none, some i, _ => some (i, dsmlShort)
  | none, none, some i => some (i, plain)
  | none, none, none => none

def plainMessage (text : Bytes) : Generated where
  content := (splitReasoningContent text).1
  reasoning := (splitReasoningContent text).2
  calls := []
  rawDsml := none

/-- The text the parser searches, as an offset into the generated text. -/
def toolSearch (text : Bytes) (requireThinkingClosed : Bool) : Option ℕ :=
  if requireThinkingClosed then
    (findLast (str "</think>") text).map (· + (str "</think>").length)
  else some 0

def parseGeneratedMessageEx (text : Bytes) (requireThinkingClosed : Bool) : Option Generated :=
  match toolSearch text requireThinkingClosed with
  | none => some (plainMessage text)
  | some offset =>
    match findBlock (text.drop offset) with
    | none => some (plainMessage text)
    | some (i, x) =>
      let start := text.drop (offset + i)
      match cut x.toolCallsStart start with
      | none => none
      | some (_, p) =>
        match invokesLoop x (p.length + 1) p with
        | none => none
        | some (rest, calls) =>
          let body := splitReasoningContent (trimToolSeparatorWs (text.take (offset + i)))
          some {
            content := body.1
            reasoning := body.2
            calls := calls
            rawDsml := some (start.take (start.length - rest.length)) }

end Ds4Studio.Dsml
