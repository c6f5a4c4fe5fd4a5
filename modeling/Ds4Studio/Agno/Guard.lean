import Ds4Studio.Json.Stringify

/-!
The guard of the Agno calls. It asks the wrapper for its status, has it switched to the
server where the answer names neither mode, and lets a call through when the answer names
the server. What the answers say is open.
-/

namespace Ds4Studio.Agno

open Ds4Studio.Json (JsString Value js)

structure AgnoExecutionGuardError where
  code : String
  message : String
  status : ℕ

/-! ### The status of the wrapper -/

/-- A property of a parsed body; of two with one name the last counts. -/
def property (name : String) : Value → Value
  | .obj members => ((members.reverse.find? fun m => m.1 = js name).map Prod.snd).getD .undefined
  | _ => .undefined

def truthy : Value → Bool
  | .undefined | .null => false
  | .bool b => b
  | .num n => n.text ≠ [0x30] && n.text ≠ [0x2d, 0x30]
  | .str s => s ≠ []
  | .arr _ | .obj _ => true

/-- `a || b` -/
def Value.or (a b : Value) : Value := if truthy a then a else b

def isText (text : String) : Value → Bool
  | .str s => s = js text
  | _ => false

/-- How the request for the status ends; `body none` is one that does not parse. -/
inductive StatusAnswer where
  | disabled
  | thrown (message : String)
  | http (status : ℕ)
  | body (parsed : Option Value)

structure WrapperStatus where
  wrapperEnabled : Bool
  state : Value
  mode : Value

def WrapperStatus.nativeAgentActive (status : WrapperStatus) : Bool := isText "agent" status.mode

def isObject : Value → Bool
  | .arr _ | .obj _ => true
  | _ => false

def readWrapperStatus : StatusAnswer → Except AgnoExecutionGuardError WrapperStatus
  | .disabled => .ok ⟨false, .str (js "server"), .str (js "server")⟩
  | .thrown message =>
      .error ⟨"WRAPPER_STATUS_UNAVAILABLE", "Unable to read wrapper status: " ++ message, 503⟩
  | .http status =>
      .error ⟨"WRAPPER_STATUS_UNAVAILABLE", "Wrapper status returned HTTP " ++ toString status, 503⟩
  | .body none => .error ⟨"WRAPPER_STATUS_INVALID", "Wrapper status payload is invalid", 503⟩
  | .body (some body) =>
      if isObject body then
        let state := Value.or (property "state" body) .null
        let mode := Value.or (property "active_mode" body)
          (Value.or (property "mode" body) (Value.or state .null))
        if truthy state || truthy mode then .ok ⟨true, state, mode⟩
        else
          .error
            ⟨"WRAPPER_STATUS_INVALID", "Wrapper status does not expose state or mode", 503⟩
      else .error ⟨"WRAPPER_STATUS_INVALID", "Wrapper status payload is invalid", 503⟩

/-! ### `ensureModelCallAllowed` -/

/-- What the guard does next with a call. -/
inductive Verdict where
  | refuse (error : AgnoExecutionGuardError)
  | switchMode
  | confirm
  | allow

/-- Behind the first status. -/
def checkBefore (answer : StatusAnswer) : Verdict :=
  match readWrapperStatus answer with
  | .error e => .refuse e
  | .ok before =>
      if before.nativeAgentActive then
        .refuse ⟨"NATIVE_AGENT_ACTIVE", "The native DS4 agent is active", 409⟩
      else if !before.wrapperEnabled || isText "server" before.mode then .allow
      else .switchMode

/-- How the request for a switch to the server ends. -/
inductive SwitchAnswer where
  | thrown (message : String)
  | http (status : ℕ)
  | ok

def checkSwitch : SwitchAnswer → Verdict
  | .thrown message =>
      .refuse
        ⟨"SERVER_MODE_SWITCH_FAILED", "Unable to switch wrapper to server mode: " ++ message, 503⟩
  | .http status =>
      .refuse ⟨"SERVER_MODE_SWITCH_FAILED", "Mode switch returned HTTP " ++ toString status, 503⟩
  | .ok => .confirm

/-- Behind the second status. -/
def checkAfter (answer : StatusAnswer) : Verdict :=
  match readWrapperStatus answer with
  | .error e => .refuse e
  | .ok after =>
      if after.nativeAgentActive || !isText "server" after.mode then
        .refuse ⟨"SERVER_MODE_NOT_CONFIRMED", "Wrapper did not confirm server mode", 503⟩
      else .allow

/-- The status of a wrapper, as far as the guard reads it. -/
def statusOf (mode state : String) : StatusAnswer :=
  .body (some (.obj [(js "active_mode", .str (js mode)), (js "state", .str (js state))]))

end Ds4Studio.Agno
