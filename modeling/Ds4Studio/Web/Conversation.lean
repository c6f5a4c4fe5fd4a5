import Ds4Studio.Json.Printed
import Ds4Studio.Lib.Utf8
import Ds4Studio.Web.Chunking

/-!
The Markdown of a conversation: the raw export, with reasoning and metadata, and the reading of an
export. Nothing is escaped in the format.
-/

namespace Ds4Studio.Web.Conversation

open Utf16 Json Chunking

def lowerAscii (u : UInt16) : UInt16 := if 0x41 ≤ u && u ≤ 0x5a then u + 0x20 else u

/-- What the language does with JSON texts and with letters. -/
structure Language where
  /-- `JSON.parse`, unless it throws -/
  parse : Utf16 → Option Value
  toLowerCase : Utf16 → Utf16
  toUpperCase : Utf16 → Utf16
  /-- `<` is in strings only, and no line ends in a string. -/
  parse_line : ∀ p q, parse (p ++ 0x0a :: 0x3c :: q) = none
  /-- Behind an object there is only white space. -/
  parse_object : ∀ p q, (parse (0x7b :: p)).isSome → (parse (0x7b :: (p ++ q))).isSome →
    ∀ u ∈ q, isSpace u = true
  lower_ascii : ∀ text : Utf16, (∀ u ∈ text, u < 0x80) → toLowerCase text = text.map lowerAscii

/-- `JSON.stringify` -/
def jsonText (v : Value) : Utf16 := Utf8.text (stringify v)

/-! ### Export -/

/-- A tool call, with its arguments as the text that they are shown as. -/
structure ToolCall where
  name : Utf16
  id : Utf16
  arguments : Utf16

structure Message where
  role : Utf16
  name : Utf16
  content : Utf16
  reasoning : Utf16
  agentNotice : Bool
  exportable : Bool
  toolCallId : Utf16
  toolCalls : List ToolCall

structure Options where
  includeReasoning : Bool
  hideCompactSageTrace : Bool
  metadata : Option Value

/-- An empty line between all parts -/
def paragraphs (parts : List Utf16) : Utf16 := join (ascii "\n\n") parts

def roleTitle (l : Language) (role : Utf16) : Utf16 :=
  if role = ascii "assistant" then ascii "Assistant"
  else if role = ascii "user" then ascii "User"
  else
    match role with
    | [] => ascii "Message"
    | u :: rest => l.toUpperCase [u] ++ rest

def toolCallName (call : ToolCall) : Utf16 := if call.name = [] then ascii "unknown" else call.name

/-- One more than the longest run of backticks, and at least `longest`; `run` of them stand in
front. -/
def fenceLength (run longest : ℕ) : Utf16 → ℕ
  | [] => if run = 0 then longest else max longest (run + 1)
  | u :: rest =>
      if u = 0x60 then fenceLength (run + 1) longest rest
      else fenceLength 0 (if run = 0 then longest else max longest (run + 1)) rest

def fenceBlock (content language : Utf16) : Utf16 :=
  let fence := List.replicate (fenceLength 0 3 content) 0x60
  fence ++ language ++ ascii "\n" ++ content ++ ascii "\n" ++ fence

def toolCallsMarkdown (hideSage : Bool) (calls : List ToolCall) : Utf16 :=
  let filtered := calls.filter fun call => !(hideSage && toolCallName call = ascii "sage")
  paragraphs (filtered.map fun call =>
    let id := if call.id = [] then [] else ascii "\n\ncall_id: `" ++ call.id ++ ascii "`"
    ascii "### Tool Call: " ++ toolCallName call ++ id ++ ascii "\n\n" ++
      fenceBlock call.arguments (ascii "json"))

def toolResultMarkdown (hideSage : Bool) (message : Message) : Utf16 :=
  if hideSage && message.name = ascii "sage" then []
  else
    let id :=
      if message.toolCallId = [] then []
      else [ascii "tool_call_id: `" ++ message.toolCallId ++ ascii "`"]
    paragraphs (id ++ [fenceBlock message.content (ascii "text")])

/-- The block of a message, unless it is left out. -/
def messageBlock (l : Language) (options : Options) (message : Message) : Option Utf16 :=
  let hide := options.hideCompactSageTrace
  let tool : Bool := message.role = ascii "tool"
  let toolCalls := toolCallsMarkdown hide message.toolCalls
  if message.agentNotice && !message.exportable then none
  else if hide && tool && message.name = ascii "sage" then none
  else if message.content = [] ∧ toolCalls = [] ∧
      (options.includeReasoning = false ∨ message.reasoning = []) then none
  else
    let title :=
      if tool ∧ message.name ≠ [] then ascii "Tool: " ++ message.name
      else roleTitle l message.role
    let reasoning :=
      if options.includeReasoning ∧ message.reasoning ≠ [] then
        [ascii "### Reasoning\n\n" ++ message.reasoning]
      else []
    let calls := if toolCalls = [] then [] else [toolCalls]
    let content :=
      if tool then
        let result := toolResultMarkdown hide message
        if result = [] then [] else [result]
      else if message.content = [] then []
      else [message.content]
    some (paragraphs ([ascii "## " ++ title] ++ reasoning ++ calls ++ content))

def separator : Utf16 := ascii "\n\n---\n\n"

def header : Utf16 := ascii "# DS4 Conversation (raw)"

/-- `buildConversationMarkdown` in the raw mode -/
def exportConversationMarkdownRaw (l : Language) (messages : List Message) (options : Options) :
    Utf16 :=
  join separator (header :: messages.filterMap (messageBlock l options)) ++ ascii "\n" ++
    match options.metadata with
    | some metadata => ascii "\n<!-- ds4-meta: " ++ jsonText metadata ++ ascii " -->\n"
    | none => []

/-! ### Metadata -/

def skipSpace (text : Utf16) : Utf16 := text.dropWhile isSpace

/-- What is behind a literal. -/
def behind (literal text : Utf16) : Option Utf16 :=
  if literal <+: text then some (text.drop literal.length) else none

/-- `<!--\s*ds4-meta:\s*\{`, and what is behind it. -/
def opening (text : Utf16) : Option Utf16 :=
  (behind (ascii "<!--") text).bind fun text =>
    (behind (ascii "ds4-meta:") (skipSpace text)).bind fun text =>
      behind (ascii "\x7b") (skipSpace text)

/-- `[\s\S]*?\}` in front of the first `\s*-->`, and what is behind. -/
def closing : Utf16 → Option (Utf16 × Utf16)
  | [] => none
  | u :: rest =>
      match if u = 0x7d then behind (ascii "-->") (skipSpace rest) else none with
      | some after => some ([u], after)
      | none => (closing rest).map fun p => (u :: p.1, p.2)

/-- The first match of `META_MARKER_RE`: what is in front, the group, and what is behind. -/
def metaMatch (text : Utf16) : Option (Utf16 × Utf16 × Utf16) :=
  match (opening text).bind closing with
  | some (group, after) => some ([], 0x7b :: group, after)
  | none =>
      match text with
      | [] => none
      | u :: rest => (metaMatch rest).map fun m => (u :: m.1, m.2)

def parseConversationMetadata (l : Language) (markdown : Utf16) : Option Value :=
  (metaMatch markdown).bind fun m => l.parse m.2.1

/-- `markdown.replace(META_MARKER_RE, "")` -/
def withoutMetadata (markdown : Utf16) : Utf16 :=
  match metaMatch markdown with
  | some (before, _, after) => before ++ after
  | none => markdown

/-! ### Messages -/

def dashes : Utf16 := ascii "---"

/-- What is behind `\n\s*---\s*\n`. -/
def rule : Utf16 → Option Utf16
  | [] => none
  | u :: rest => if u = 0x0a then (behind dashes (skipSpace rest)).bind afterBlank else none

theorem length_behind {literal text after : Utf16} (h : behind literal text = some after) :
    after.length ≤ text.length := by
  rw [behind] at h
  split_ifs at h
  cases h
  rw [List.length_drop]
  exact Nat.sub_le _ _

theorem length_rule {text after : Utf16} (h : rule text = some after) :
    after.length < text.length := by
  cases text with
  | nil => cases h
  | cons u rest =>
    rw [rule] at h
    split_ifs at h
    obtain ⟨more, hmore, hafter⟩ := Option.bind_eq_some_iff.mp h
    have hskip : (skipSpace rest).length ≤ rest.length := (List.dropWhile_sublist isSpace).length_le
    have hblank := length_afterBlank hafter
    have hmore' := length_behind hmore
    rw [List.length_cons]
    omega

/-- `raw.split(/\n\s*---\s*\n/)` -/
def splitRules (text : Utf16) : List Utf16 :=
  match _h : rule text with
  | some after => [] :: splitRules after
  | none =>
      match text with
      | [] => [[]]
      | u :: rest => (splitRules rest).modifyHead (u :: ·)
termination_by text.length
decreasing_by
  · exact length_rule _h
  · exact Nat.lt_succ_self _

/-- `/^##\s+/m`; `start`: the text is at the start of a line. -/
def hasHeading (start : Bool) : Utf16 → Bool
  | [] => false
  | u :: rest =>
      (start && (match behind (ascii "##") (u :: rest) with
        | some (v :: _) => isSpace v
        | _ => false)) || hasHeading (isTerminator u) rest

/-- `(.+?)\s*\n+([\s\S]*)` -/
def lazyTitle : Utf16 → Option (Utf16 × Utf16)
  | [] => none
  | u :: rest =>
      if isTerminator u then none
      else
        match afterBlank rest with
        | some body => some ([u], body)
        | none => (lazyTitle rest).map fun p => (u :: p.1, p.2)

/-- `\s+(.+?)\s*\n+([\s\S]*)`, with as much white space in front as there can be. -/
def spacedTitle : Utf16 → Option (Utf16 × Utf16)
  | [] => none
  | u :: rest =>
      if isSpace u then
        match spacedTitle rest with
        | some p => some p
        | none => lazyTitle rest
      else none

def roleFromTitle (l : Language) (title : Utf16) : Utf16 :=
  let normalized := l.toLowerCase (trim title)
  if normalized = ascii "assistant" then ascii "assistant"
  else if normalized = ascii "user" then ascii "user"
  else if normalized = ascii "tool" ∨ ascii "tool:" <+: normalized then ascii "tool"
  else if normalized = [] then ascii "message"
  else normalized

structure Parsed where
  role : Utf16
  content : Utf16
  reasoning : Utf16
  fromArchive : Bool

/-- The reasoning of a body and its content. -/
def splitReasoning (body : Utf16) : Utf16 × Utf16 :=
  match behind (ascii "### Reasoning") body with
  | none => ([], body)
  | some rest =>
      let reasoningBody := (afterBlank rest).getD body
      match Search.cut (ascii "\n\n") reasoningBody with
      | none => (trim reasoningBody, [])
      | some (reasoning, content) => (trim reasoning, trim content)

def parseBlock (l : Language) (block : Utf16) : Option Parsed :=
  ((behind (ascii "##") block).bind spacedTitle).map fun p =>
    let (reasoning, content) := splitReasoning (trim p.2)
    ⟨roleFromTitle l p.1, content, reasoning, true⟩

def parseConversationMarkdown (l : Language) (markdown : Utf16) : List Parsed :=
  let raw := trim (withoutMetadata markdown)
  if raw = [] then []
  else (((splitRules raw).map trim).filter (hasHeading true)).filterMap (parseBlock l)

end Ds4Studio.Web.Conversation
