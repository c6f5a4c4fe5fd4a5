import Ds4Studio.Evolution.States

/-!
The ledger of an evolution run: a file with one event on each line, every event bound to the one
before it by its hash. A partial last line is what an interrupted write has left behind.
-/

namespace Ds4Studio.EvolutionLedger

open Bytes Json List
open Evolution (RunState assertTransition)

/-! ### Values -/

/-- `value?.name` -/
def get (name : String) : Value → Value
  | .obj members => ((members.find? fun m => m.1 = js name).map Prod.snd).getD .undefined
  | _ => .undefined

/-- `value ?? fallback` -/
def orElse (fallback : Value) : Value → Value
  | .undefined | .null => fallback
  | v => v

def strOf : Value → Option JsString
  | .str s => some s
  | _ => none

def isStr (s : String) (v : Value) : Bool := strOf v = some (js s)

mutual

/-- `String(value)` -/
def toText : Value → JsString
  | .undefined => js "undefined"
  | .null => js "null"
  | .bool b => js (if b then "true" else "false")
  | .num n => n.text.map fun b => Fin.castLE (by decide) b.toFin
  | .str s => s
  | .arr elements => joinText elements
  | .obj _ => js "[object Object]"

/-- The elements between commas. -/
def joinText : List Value → JsString
  | [] => []
  | [element] => elementText element
  | element :: rest => elementText element ++ js "," ++ joinText rest

def elementText : Value → JsString
  | .undefined | .null => []
  | .bool b => js (if b then "true" else "false")
  | .num n => n.text.map fun b => Fin.castLE (by decide) b.toFin
  | .str s => s
  | .arr elements => joinText elements
  | .obj _ => js "[object Object]"

end

def truthy : Value → Bool
  | .undefined | .null | .bool false => false
  | .num n => n.text ≠ str "0"
  | .str s => s ≠ []
  | _ => true

/-! ### Numbers -/

/-- The digits of a number, for enough fuel. -/
def digitsOf : ℕ → ℕ → Bytes
  | 0, _ => []
  | fuel + 1, n => (if n < 10 then [] else digitsOf fuel (n / 10)) ++ [(0x30 + n % 10).toUInt8]

theorem digitsOf_digits (fuel n : ℕ) : (digitsOf fuel n).all isDigit = true := by
  have hdigit : ∀ d : Fin 10, isDigit (0x30 + d.val).toUInt8 = true := by decide
  induction fuel generalizing n with
  | zero => rfl
  | succ fuel ih =>
    unfold digitsOf
    rw [all_append, all_cons, hdigit ⟨n % 10, Nat.mod_lt n (by decide)⟩]
    split
    · rfl
    · rw [ih]
      rfl

theorem digitsOf_head {fuel n : ℕ} (h : n < fuel) (hpos : 0 < n) :
    (digitsOf fuel n).head? ≠ some 0x30 ∧ digitsOf fuel n ≠ [] := by
  have hdigit : ∀ d : Fin 10, 0 < d.val → (0x30 + d.val).toUInt8 ≠ 0x30 := by decide
  induction fuel generalizing n with
  | zero => omega
  | succ fuel ih =>
    unfold digitsOf
    by_cases hsmall : n < 10
    · rw [if_pos hsmall, Nat.mod_eq_of_lt hsmall]
      exact ⟨fun heq => hdigit ⟨n, hsmall⟩ hpos (Option.some.inj heq), cons_ne_nil _ _⟩
    · obtain ⟨hhead, hne⟩ := ih (n := n / 10) (by omega) (by omega)
      rw [if_neg hsmall, head?_append_of_ne_nil _ hne]
      exact ⟨hhead, append_ne_nil_of_left_ne_nil hne _⟩

theorem digitsOf_int (n : ℕ) : Int (digitsOf (n + 1) n) := by
  by_cases hpos : 0 < n
  · obtain ⟨hhead, hne⟩ := digitsOf_head (Nat.lt_succ_self n) hpos
    exact ⟨⟨hne, digitsOf_digits _ _⟩, .inr hhead⟩
  · obtain rfl : n = 0 := by omega
    exact ⟨⟨by decide, by decide⟩, .inl rfl⟩

def numeral (n : ℕ) : Numeral where
  text := digitsOf (n + 1) n
  printed := ⟨[], _, [], [], .inl rfl, digitsOf_int n, .inl rfl, .inl rfl, by simp⟩

def natural (n : ℕ) : Value := .num (numeral n)

/-- A safe integer that is not negative. -/
def toNatural : Value → Option ℕ
  | .num n =>
      if n.text.all isDigit then
        let k := n.text.foldl (fun k d => 10 * k + (d.toNat - 0x30)) 0
        if k < 2 ^ 53 then some k else none
      else none
  | _ => none

def isNatural (n : ℕ) : Value → Bool
  | .num m => m.text = (numeral n).text
  | _ => false

/-! ### The world around the ledger -/

def hex64 (s : JsString) : Bool :=
  s.length = 64 && s.all fun c =>
    (0x30 ≤ c.val && c.val ≤ 0x39) || (0x61 ≤ c.val && c.val ≤ 0x66)

/-- What Node does for the ledger. -/
structure Host where
  sha256 : Bytes → JsString
  sha256_hex : ∀ b, hex64 (sha256 b) = true
  /-- `Date.parse` is not NaN. -/
  dateParses : JsString → Bool
  jsonParse : Bytes → Option Value
  /-- A text that has been printed is parsed to the value it was printed for. No value holds a
  number that is spelled otherwise than `JSON.stringify` spells it. -/
  jsonParse_stringify : ∀ v, InOrder v → jsonParse (stringify v) = some v

/-- `hashJson`; it throws if the value has no canonical text. -/
def Host.hashJson (host : Host) (v : Value) : Option JsString := (canonicalJson v).map host.sha256

/-- `timingSafeHexEqual` -/
def hexEqual (left right : Value) : Bool :=
  match left, right with
  | .str s, .str t => hex64 s && hex64 t && s = t
  | _, _ => false

/-! ### Events -/

def zeroHash : Value := .str (js (String.ofList (List.replicate 64 '0')))

/-- `EVENT_TYPE_PATTERN` -/
def eventTypePattern (s : JsString) : Bool :=
  let upper : Fin 0x110000 → Bool := fun c => 0x41 ≤ c.val && c.val ≤ 0x5a
  match s with
  | [] => false
  | c :: rest => upper c && 2 ≤ rest.length && rest.length ≤ 127 &&
      rest.all fun c => upper c || (0x30 ≤ c.val && c.val ≤ 0x39) || c.val = 0x5f

/-- The names that the hash of an event covers, in their order. -/
def coreNames : List String :=
  ["eventId", "eventVersion", "payload", "payloadHash", "previousEventHash", "revision", "runId",
    "sequence", "timestamp", "type"]

def eventKeys : List String := "eventHash" :: coreNames

/-- `eventCore` -/
def eventCore (event : Value) : Value := .obj (coreNames.map fun name => (js name, get name event))

def eventVersion : String := "ds4_evolution_event_v1"

/-- `validateEventShape` -/
def validEvent (host : Host) (runId : JsString) (sequence : ℕ) (previousEventHash event : Value) :
    Bool :=
  match event with
  | .obj members =>
      (members.all fun m => eventKeys.any fun name => m.1 = js name) &&
        isStr eventVersion (get "eventVersion" event) &&
        strOf (get "runId" event) = some runId &&
        isNatural sequence (get "sequence" event) &&
        (toNatural (get "revision" event)).isSome &&
        eventTypePattern (toText (get "type" event)) &&
        truthy (get "eventId" event) &&
        host.dateParses (toText (get "timestamp" event)) &&
        (host.hashJson (get "payload" event)).any (fun hash =>
          hexEqual (.str hash) (get "payloadHash" event)) &&
        hexEqual previousEventHash (get "previousEventHash" event) &&
        (host.hashJson (eventCore event)).any fun hash =>
          hexEqual (.str hash) (get "eventHash" event)
  | _ => false

/-! ### Reading -/

def newline : UInt8 := 0x0a

/-- What stands in front of each line end. -/
def lines : Bytes → List Bytes
  | [] => []
  | b :: rest =>
      if b = newline then [] :: lines rest
      else match lines rest with
        | [] => [[b]]
        | line :: more => (b :: line) :: more

/-- The file without a partial last line. -/
def recovered (file : Bytes) : Bytes := (file.reverse.dropWhile fun b => b ≠ newline).reverse

def readLines (host : Host) (runId : JsString) (sequence : ℕ) (previousEventHash : Value) :
    List Bytes → Option (List Value)
  | [] => some []
  | line :: rest =>
      if line = [] then none
      else match host.jsonParse line with
        | none => none
        | some event =>
            if validEvent host runId sequence previousEventHash event then
              (readLines host runId (sequence + 1) (get "eventHash" event) rest).map (event :: ·)
            else none

/-- What `_readEventsUnlocked` leaves in the file. -/
def fileAfterRead (recoverTail : Bool) (file : Bytes) : Bytes :=
  if recoverTail then recovered file else file

/-- `_readEventsUnlocked`; `none` where it throws. -/
def readEvents (host : Host) (runId : JsString) (recoverTail : Bool) (file : Bytes) :
    Option (List Value) :=
  if file ≠ [] ∧ file.getLast? ≠ some newline ∧ ¬ recoverTail then none
  else readLines host runId 1 zeroHash (lines (recovered file))

/-! ### Appending -/

structure Input where
  sequence : Value := .undefined
  revision : Value := .undefined
  eventId : Value := .undefined
  type : Value
  timestamp : Value := .undefined
  payload : Value := .undefined

def maxEventBytes : ℕ := 64000

/-- The last hash of the ledger. -/
def lastHash (events : List Value) : Value :=
  match events.getLast? with
  | some event => orElse zeroHash (get "eventHash" event)
  | none => zeroHash

/-- The core of the event that an input makes, behind its hash. -/
def newCore (runId freshId now : JsString) (events : List Value) (input : Input)
    (payloadHash : JsString) : List (JsString × Value) :=
  [(js "eventId", .str (toText (orElse (.str freshId) input.eventId))),
    (js "eventVersion", .str (js eventVersion)),
    (js "payload", orElse (.obj []) input.payload),
    (js "payloadHash", .str payloadHash),
    (js "previousEventHash", lastHash events),
    (js "revision", orElse (natural 0) input.revision),
    (js "runId", .str runId),
    (js "sequence", natural (events.length + 1)),
    (js "timestamp", orElse (.str now) input.timestamp),
    (js "type", input.type)]

/-- A sequence that is given is the next one. -/
def isExpected (expected : ℕ) : Value → Bool
  | .undefined => true
  | sequence => isNatural expected sequence

/-- `_appendEventUnlocked` up to the write; `none` where it throws. `freshId` and `now` are what the
factory and the clock give. -/
def newEvent (host : Host) (runId freshId now : JsString) (events : List Value) (input : Input) :
    Option Value :=
  let expected := events.length + 1
  let revision := orElse (natural 0) input.revision
  let payload := orElse (.obj []) input.payload
  if !isExpected expected input.sequence then none
  else if !(toNatural revision).any fun n => n ≤ 999999 then none
  else if !eventTypePattern (toText (orElse (.str []) input.type)) then none
  else match canonicalJson payload with
    | none => none
    | some text =>
        if maxEventBytes < text.length then none
        else
          let core := newCore runId freshId now events input (host.sha256 text)
          (host.hashJson (.obj core)).map fun hash => .obj ((js "eventHash", .str hash) :: core)

/-- The line of an event. -/
def lineOf (event : Value) : Bytes := ((canonicalJson event).getD []) ++ [newline]

/-! ### The state of the run -/

def revisionOf (event : Value) : ℕ := (toNatural (get "revision" event)).getD 0

def isTransition (event : Value) : Bool := isStr "STATE_TRANSITION" (get "type" event)

/-- The state that a transition leads to, from the state that the run is in. -/
def transitionTarget (state : RunState) (payload : Value) : Option RunState :=
  if isStr state.name (get "from" payload) then
    match (strOf (get "to" payload)).bind RunState.ofName with
    | none => none
    | some target =>
        if assertTransition state target (strOf (get "kind" payload))
            (toText (orElse (.str []) (get "reasonCode" payload))) then some target
        else none
  else none

def replay : RunState × ℕ → List Value → Option (RunState × ℕ)
  | run, [] => some run
  | (state, revision), event :: rest =>
      if isTransition event then
        match transitionTarget state (get "payload" event) with
        | none => none
        | some target => replay (target, max revision (revisionOf event)) rest
      else replay (state, max revision (revisionOf event)) rest

/-- `reconstruct`, without the sequence and the events that it gives back. -/
def reconstruct : List Value → Option (RunState × ℕ)
  | [] => none
  | first :: rest =>
      if isStr "RUN_CREATED" (get "type" first) ∧
          isStr "CREATED" (get "state" (get "payload" first)) then replay (.created, 0) rest
      else none

/-- The options of a transition. -/
structure TransitionOptions where
  kind : Value := .undefined
  reasonCode : Value := .undefined
  details : Value := .undefined
  revision : Value := .undefined

def transitionPayload (state target : RunState) (options : TransitionOptions) : Value :=
  .obj [(js "details", orElse .null options.details),
    (js "from", .str (js state.name)),
    (js "kind", orElse (.str (js "ordinary")) options.kind),
    (js "reasonCode", orElse .null options.reasonCode),
    (js "to", .str (js target.name))]

/-- The input that `transitionRun` appends. -/
def transitionInput (events : List Value) (target : JsString) (options : TransitionOptions) :
    Option Input :=
  match reconstruct events, RunState.ofName target with
  | some (state, revision), some target =>
      if assertTransition state target (strOf options.kind)
          (toText (orElse (.str []) options.reasonCode)) then
        some
          { revision := orElse (natural revision) options.revision
            type := .str (js "STATE_TRANSITION")
            payload := transitionPayload state target options }
      else none
  | _, _ => none

end Ds4Studio.EvolutionLedger
