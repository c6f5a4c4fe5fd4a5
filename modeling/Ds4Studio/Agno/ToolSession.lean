import Ds4Studio.Json.Stringify

/-!
The sessions of the tool bridge: one record for each session and run, found under a text that
joins the two ids. A record is aborted where it is cancelled or swept, and leaves the registry
with that.
-/

namespace Ds4Studio.Agno

open Ds4Studio.Json (JsString js)

/-! ### Ids -/

structure SessionError where
  code : String
  message : String

/-- What `trim` takes off. -/
def isBlank (c : Fin 0x110000) : Bool :=
  c.val ∈ [0x09, 0x0a, 0x0b, 0x0c, 0x0d, 0x20, 0xa0, 0x1680, 0x2028, 0x2029, 0x202f, 0x205f,
    0x3000, 0xfeff] || (0x2000 ≤ c.val && c.val ≤ 0x200a)

def trim (text : JsString) : JsString :=
  ((text.dropWhile isBlank).reverse.dropWhile isBlank).reverse

/-- The length in UTF-16. -/
def jsLength (text : JsString) : ℕ := (text.map fun c => if c.val ≤ 0xffff then 1 else 2).sum

def idMaxLength : ℕ := 128

def isIdChar (c : Fin 0x110000) : Bool :=
  (0x41 ≤ c.val && c.val ≤ 0x5a) || (0x61 ≤ c.val && c.val ≤ 0x7a) ||
    (0x30 ≤ c.val && c.val ≤ 0x39) || c.val ∈ [0x2e, 0x5f, 0x3a, 0x2d]

def sanitizeExternalId (value : JsString) (label : String) : Except SessionError JsString :=
  let text := trim value
  if text = [] ∨ idMaxLength < jsLength text then
    .error ⟨"INVALID_TOOL_CONTEXT", label ++ " is missing or too long"⟩
  else if text.all isIdChar then .ok text
  else .error ⟨"INVALID_TOOL_CONTEXT", label ++ " contains invalid characters"⟩

def sanitizeOptionalExternalId (value : JsString) (label : String) :
    Except SessionError (Option JsString) :=
  if trim value = [] then .ok none else (sanitizeExternalId value label).map some

/-- The session and the run of a call. -/
structure ToolRun where
  sessionId : JsString
  runId : JsString
deriving DecidableEq

/-- The text a record is found under. -/
def ToolRun.key (run : ToolRun) : JsString := run.sessionId ++ js ":" ++ run.runId

/-- The ids of a request, as they are given. -/
structure Context where
  sessionId : JsString
  runId : JsString
  userId : JsString

def Context.run (context : Context) : Except SessionError ToolRun := do
  let sessionId ← sanitizeExternalId context.sessionId "session"
  let runId ← sanitizeExternalId context.runId "run"
  pure ⟨sessionId, runId⟩

/-! ### The registry -/

structure Record where
  run : ToolRun
  userId : Option JsString
  lastSeenAt : ℕ
  aborted : Bool

/-- The records by their reference, and the references by their keys. -/
structure ToolSessions where
  record : ℕ → Option Record
  sessions : JsString → Option ℕ
  next : ℕ

def ToolSessions.empty : ToolSessions := ⟨fun _ => none, fun _ => none, 0⟩

def idleTtlMs : ℕ := 30 * 60000

/-- `getOrCreate` -/
def ToolSessions.getOrCreate (now : ℕ) (context : Context) (t : ToolSessions) :
    Except SessionError (ToolSessions × ℕ) := do
  let run ← context.run
  match t.sessions run.key with
  | some r =>
      pure ({ t with
        record := Function.update t.record r
          ((t.record r).map fun record => { record with lastSeenAt := now }) }, r)
  | none =>
      let userId ← sanitizeOptionalExternalId context.userId "userId"
      pure ({
        record := Function.update t.record t.next (some ⟨run, userId, now, false⟩)
        sessions := Function.update t.sessions run.key (some t.next)
        next := t.next + 1 }, t.next)

def Record.abort (record : Record) : Record := { record with aborted := true }

/-- `cancelAndClose` -/
def ToolSessions.cancelAndClose (run : ToolRun) (t : ToolSessions) : ToolSessions :=
  match t.sessions run.key with
  | none => t
  | some r =>
      { t with
        record := Function.update t.record r ((t.record r).map Record.abort)
        sessions := Function.update t.sessions run.key none }

def Record.idle (now : ℕ) (record : Record) : Bool := idleTtlMs < now - record.lastSeenAt

/-- Whether a sweep takes the record with a reference. -/
def ToolSessions.swept (now : ℕ) (t : ToolSessions) (r : ℕ) : Bool := (t.record r).any (·.idle now)

/-- A registered record is found under the key of its run. -/
def ToolSessions.registered (t : ToolSessions) (r : ℕ) : Bool :=
  (t.record r).any fun record => t.sessions record.run.key = some r

def ToolSessions.sweep (now : ℕ) (t : ToolSessions) : ToolSessions :=
  { t with
    record := fun r =>
      if t.registered r && t.swept now r then (t.record r).map Record.abort else t.record r
    sessions := fun key => (t.sessions key).filter fun r => !t.swept now r }

def ToolSessions.aborted (t : ToolSessions) (r : ℕ) : Bool := (t.record r).any Record.aborted

end Ds4Studio.Agno
