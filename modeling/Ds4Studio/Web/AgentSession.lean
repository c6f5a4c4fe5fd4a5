import Mathlib.Data.List.Lex
import Mathlib.Data.List.Sort
import Ds4Studio.Json.Printed

/-!
The stateful protocol of the web agent: what a session has committed, the choice between
a full replay and a delta, and the commit of a response. A message is a reference, equal
to itself alone, to a value that is not written again.
-/

namespace Ds4Studio.Web

open Bytes Json List

/-! ### Stable JSON -/

/-- The code units of a string. -/
def codeUnits (s : JsString) : List ℕ :=
  s.flatMap fun cp =>
    if cp.val < 0x10000 then [cp.val]
    else [0xd800 + (cp.val - 0x10000) / 0x400, 0xdc00 + (cp.val - 0x10000) % 0x400]

/-- The order of `Array.prototype.sort`. -/
def keyLe (a b : JsString × Value) : Prop := codeUnits a.1 ≤ codeUnits b.1

instance : DecidableRel keyLe := fun a b =>
  inferInstanceAs (Decidable (codeUnits a.1 ≤ codeUnits b.1))

/-- The number of a key that is an array index. -/
def arrayIndex (key : JsString) : Option ℕ :=
  if key.all (fun cp => 0x30 ≤ cp.val && cp.val ≤ 0x39) && !key.isEmpty &&
      (key.length == 1 || key.head? != some 0x30) then
    let n := key.foldl (fun n cp => n * 10 + (cp.val - 0x30)) 0
    if n < 2 ^ 32 - 1 then some n else none
  else none

def indexLe (a b : JsString × Value) : Prop := (arrayIndex a.1).getD 0 ≤ (arrayIndex b.1).getD 0

instance : DecidableRel indexLe := fun a b =>
  inferInstanceAs (Decidable ((arrayIndex a.1).getD 0 ≤ (arrayIndex b.1).getD 0))

/-- The own members of an empty object to which these have been assigned one after the
other: array indices come first, and `__proto__` is no member but sets the prototype. -/
def assigned (members : List (JsString × Value)) : List (JsString × Value) :=
  let own := members.filter fun member => member.1 != js "__proto__"
  (own.filter fun member => (arrayIndex member.1).isSome).insertionSort indexLe ++
    own.filter fun member => (arrayIndex member.1).isNone

mutual

def stable : Value → Value
  | .undefined => .null
  | .arr elements => .arr (stableElements elements)
  | .obj members => .obj (assigned ((stableMembers members).insertionSort keyLe))
  | .null => .null
  | .bool b => .bool b
  | .num n => .num n
  | .str s => .str s

def stableElements : List Value → List Value
  | [] => []
  | element :: rest => stable element :: stableElements rest

def stableMembers : List (JsString × Value) → List (JsString × Value)
  | [] => []
  | (_, .undefined) :: rest => stableMembers rest
  | (key, value) :: rest => (key, stable value) :: stableMembers rest

end

def stableJson (value : Value) : Bytes := stringify (stable value)

variable {members : List (JsString × Value)}

theorem definedMembers_iff : DefinedMembers members ↔ ∀ member ∈ members, Defined member.2 := by
  induction members with
  | nil => simp [DefinedMembers]
  | cons member rest ih => simp [DefinedMembers, ih]

theorem defined_assigned (h : ∀ member ∈ members, Defined member.2) :
    DefinedMembers (assigned (members.insertionSort keyLe)) := by
  rw [definedMembers_iff]
  intro member hmem
  apply h
  simp only [assigned, mem_append, mem_insertionSort, mem_filter] at hmem
  rcases hmem with hmem | hmem
  · exact hmem.1.1
  · exact hmem.1.1

mutual

theorem defined_stable : ∀ value : Value, Defined (stable value)
  | .undefined | .null | .bool _ | .num _ | .str _ => trivial
  | .arr elements => defined_stableElements elements
  | .obj members => defined_assigned (defined_stableMembers members)

theorem defined_stableElements : ∀ elements : List Value,
    DefinedElements (stableElements elements)
  | [] => trivial
  | element :: rest => ⟨defined_stable element, defined_stableElements rest⟩

theorem defined_stableMembers : ∀ members : List (JsString × Value),
    ∀ member ∈ stableMembers members, Defined member.2
  | [] => nofun
  | (key, value) :: rest => by
    intro member hmem
    cases value with
    | undefined => exact defined_stableMembers rest member hmem
    | _ =>
      rcases List.mem_cons.mp hmem with rfl | hmem
      · exact defined_stable _
      · exact defined_stableMembers rest member hmem

end

theorem stable_of_stableJson {a b : Value} (h : stableJson a = stableJson b) :
    stable a = stable b :=
  stringify_injOn (defined_stable a) (defined_stable b) h

/-- The value of a key, `undefined` without one. -/
def lookup (key : JsString) (members : List (JsString × Value)) : Value :=
  ((members.find? fun m => m.1 == key).map Prod.snd).getD .undefined

/-- `value?.key` -/
def member (value : Value) (key : String) : Value :=
  match value with
  | .obj members => lookup (js key) members
  | _ => .undefined

theorem lookup_of_mem {key : JsString} {value : Value} (hnodup : (members.map Prod.fst).Nodup)
    (h : (key, value) ∈ members) : lookup key members = value := by
  induction members with
  | nil => exact absurd h (by simp)
  | cons m rest ih =>
    obtain ⟨hnew, hrest⟩ := nodup_cons.mp hnodup
    unfold lookup at ih ⊢
    rcases mem_cons.mp h with rfl | h
    · simp
    · have hne : (m.1 == key) = false := by
        apply beq_false_of_ne
        rintro rfl
        exact hnew (mem_map.mpr ⟨_, h, rfl⟩)
      rw [find?_cons_of_neg (by simp [hne])]
      exact ih hrest h

theorem lookup_of_not_mem {key : JsString} (h : ∀ value, (key, value) ∉ members) :
    lookup key members = .undefined := by
  have hnone : members.find? (fun m => m.1 == key) = none := by
    rw [find?_eq_none]
    rintro ⟨k, value⟩ hmem heq
    obtain rfl := eq_of_beq heq
    exact h value hmem
  unfold lookup
  rw [hnone]
  rfl

theorem mem_stableMembers {key : JsString} {value : Value} :
    (key, value) ∈ stableMembers members ↔
      ∃ old, (key, old) ∈ members ∧ old ≠ .undefined ∧ value = stable old := by
  induction members with
  | nil => simp [stableMembers]
  | cons m rest ih =>
    obtain ⟨k, v⟩ := m
    by_cases hv : v = .undefined
    · subst hv
      unfold stableMembers
      rw [ih]
      constructor
      · rintro ⟨old, hmem, hold⟩
        exact ⟨old, mem_cons_of_mem _ hmem, hold⟩
      · rintro ⟨old, hmem, hold, heq⟩
        rcases mem_cons.mp hmem with h | hmem
        · exact absurd (Prod.mk.inj h).2 hold
        · exact ⟨old, hmem, hold, heq⟩
    · have hcons : stableMembers ((k, v) :: rest) = (k, stable v) :: stableMembers rest := by
        cases v <;> first | rfl | exact absurd rfl hv
      rw [hcons, mem_cons, ih]
      constructor
      · rintro (h | ⟨old, hmem, hold⟩)
        · obtain ⟨rfl, rfl⟩ := Prod.mk.inj h
          exact ⟨v, mem_cons_self, hv, rfl⟩
        · exact ⟨old, mem_cons_of_mem _ hmem, hold⟩
      · rintro ⟨old, hmem, hold, heq⟩
        rcases mem_cons.mp hmem with h | hmem
        · obtain ⟨rfl, rfl⟩ := Prod.mk.inj h
          exact .inl (by rw [heq])
        · exact .inr ⟨old, hmem, hold, heq⟩

theorem keys_stableMembers (members : List (JsString × Value)) :
    ((stableMembers members).map Prod.fst).Sublist (members.map Prod.fst) := by
  induction members with
  | nil => exact .slnil
  | cons m rest ih =>
    obtain ⟨k, v⟩ := m
    cases v with
    | undefined => exact ih.cons _
    | _ => exact ih.cons_cons _

theorem mem_assigned {m : JsString × Value} :
    m ∈ assigned members ↔ m ∈ members ∧ m.1 ≠ js "__proto__" := by
  simp only [assigned, mem_append, mem_insertionSort, mem_filter, bne_iff_ne]
  cases arrayIndex m.1 <;> simp

theorem assigned_perm (members : List (JsString × Value)) :
    (assigned members).Perm (members.filter fun member => member.1 != js "__proto__") := by
  have hsplit := filter_append_perm (fun m : JsString × Value => (arrayIndex m.1).isSome)
    (members.filter fun member => member.1 != js "__proto__")
  simp only [Option.not_isSome] at hsplit
  exact ((perm_insertionSort _ _).append_right _).trans hsplit

theorem member_stable (hnodup : (members.map Prod.fst).Nodup) {key : String}
    (hkey : js key ≠ js "__proto__") :
    member (stable (.obj members)) key =
      match member (.obj members) key with
      | .undefined => .undefined
      | value => stable value := by
  change lookup (js key) (assigned ((stableMembers members).insertionSort keyLe)) =
    match lookup (js key) members with
    | .undefined => .undefined
    | value => stable value
  have hsorted : (((stableMembers members).insertionSort keyLe).map Prod.fst).Nodup :=
    ((perm_insertionSort keyLe _).map Prod.fst).nodup_iff.mpr
      (hnodup.sublist (keys_stableMembers members))
  have hassigned : ((assigned ((stableMembers members).insertionSort keyLe)).map
      Prod.fst).Nodup :=
    ((assigned_perm _).map Prod.fst).nodup_iff.mpr
      (hsorted.sublist (filter_sublist.map _))
  have hmem : ∀ value, (js key, value) ∈ assigned ((stableMembers members).insertionSort keyLe) ↔
      ∃ old, (js key, old) ∈ members ∧ old ≠ .undefined ∧ value = stable old := by
    intro value
    rw [mem_assigned, mem_insertionSort, mem_stableMembers]
    exact ⟨And.left, fun h => ⟨h, hkey⟩⟩
  by_cases h : ∃ old, (js key, old) ∈ members ∧ old ≠ .undefined
  · obtain ⟨old, hold, hdefined⟩ := h
    rw [lookup_of_mem hassigned ((hmem _).mpr ⟨old, hold, hdefined, rfl⟩),
      lookup_of_mem hnodup hold]
    cases old <;> first | rfl | exact absurd rfl hdefined
  · rw [lookup_of_not_mem fun value hvalue => h ?_]
    · by_cases hundefined : (js key, Value.undefined) ∈ members
      · rw [lookup_of_mem hnodup hundefined]
      · rw [lookup_of_not_mem fun value hvalue => ?_]
        by_cases hvalue' : value = .undefined
        · exact hundefined (hvalue' ▸ hvalue)
        · exact h ⟨value, hvalue, hvalue'⟩
    · obtain ⟨old, hold, hdefined, -⟩ := (hmem value).mp hvalue
      exact ⟨old, hold, hdefined⟩

def isString (value : Value) (s : String) : Bool :=
  match value with
  | .str t => t == js s
  | _ => false

/-! ### Sessions -/

/-- The values behind the messages, SHA-1 and the schemas of the tools. -/
structure Env (M D : Type) where
  value : M → Value
  digest : Bytes → D
  agentTools : Value

section

variable {M D R : Type} (env : Env M D)

def Env.sha1 (value : Value) : D := env.digest (stableJson value)

def Env.hashMessage (msg : M) : D := env.sha1 (env.value msg)

/-- Messages eligible for delta mode. -/
def Env.isDeltaRole (msg : M) : Bool :=
  let role := member (env.value msg) "role"
  isString role "user" || isString role "tool" || isString role "function"

def Env.hasUserMessage (messages : List M) : Bool :=
  messages.any fun msg => isString (member (env.value msg) "role") "user"

inductive Mode where
  | reset
  | delta
  deriving DecidableEq, Repr

/-- A hash is `none` where an array of hashes is read behind its end. -/
structure SessionState (M D : Type) where
  sessionId : String
  revision : ℕ
  messageHashes : List (Option D)
  messages : List M
  toolsHash : D

/-- `lastMode`: `none` for the text of this name. -/
structure AgentSessionManager (M D : Type) where
  state : Option (SessionState M D)
  active : Bool
  lastMode : Option Mode
  lastReason : String

def AgentSessionManager.new : AgentSessionManager M D where
  state := none
  active := false
  lastMode := none
  lastReason := "not started"

/-- `now` is the time and `counter` the number of sessions started so far. -/
def AgentSessionManager.start (_ : AgentSessionManager M D) (now counter : ℕ) :
    AgentSessionManager M D where
  state := some
    { sessionId := s!"ds4studio_agent_{now}_{counter}"
      revision := 0
      messageHashes := []
      messages := []
      toolsHash := env.sha1 env.agentTools }
  active := true
  lastMode := none
  lastReason := "agent started"

def AgentSessionManager.stop (_ : AgentSessionManager M D) : AgentSessionManager M D where
  state := none
  active := false
  lastMode := none
  lastReason := "agent stopped"

def AgentSessionManager.reset (manager : AgentSessionManager M D) (reason : String) :
    AgentSessionManager M D :=
  match manager.state with
  | none => manager
  | some state =>
    { manager with
      state := some { state with revision := 0, messageHashes := [], messages := [] }
      lastMode := none
      lastReason := reason }

/-- The committed transcript. -/
def AgentSessionManager.messages (manager : AgentSessionManager M D) : List M :=
  match manager.state with
  | none => []
  | some state => state.messages

/-! ### Choosing a payload -/

/-- Hashes of the messages; a stored one is taken as long as the references agree. -/
def Env.hashPrefix [DecidableEq M] : List M → List (Option D) → List M → List (Option D)
  | [], _, full => full.map fun msg => some (env.hashMessage msg)
  | _, _, [] => []
  | stored :: rest, hashes, msg :: full =>
      if msg = stored then hashes.headD none :: hashPrefix rest hashes.tail full
      else (msg :: full).map fun msg => some (env.hashMessage msg)

def Env.hashFullMessages [DecidableEq M] (manager : AgentSessionManager M D)
    (fullMessages : List M) : List (Option D) :=
  match manager.state with
  | none => fullMessages.map fun msg => some (env.hashMessage msg)
  | some state => env.hashPrefix state.messages state.messageHashes fullMessages

/-- The members of a request that are read, and the `rest`. -/
structure Request (M R : Type) where
  rest : R
  messages : Option (List M)
  tools : Value

inductive UserTurnPolicy where
  | reset
  | delta
  | auto
  deriving DecidableEq, Repr

structure ChooseOptions where
  allowDelta : Bool
  userTurnPolicy : UserTurnPolicy
  forceReset : Bool

/-- The members that a session adds to a request. -/
structure Stateful where
  sessionId : String
  mode : Mode
  parentRevision : ℕ
  reason : String
  fullMessages : ℕ
  sentMessages : ℕ
  previousMessages : ℕ
  storedRevision : ℕ

/-- `stateful`: what stands over the members of the caller. -/
structure Payload (M R : Type) where
  rest : R
  tools : Value
  messages : List M
  delta : Option (List M)
  stateful : Option Stateful

structure Pending (M D : Type) where
  mode : Mode
  parentRevision : ℕ
  requestMessages : List M
  fullMessages : List M
  fullHashes : Option (List (Option D))
  toolsHash : D
  sessionId : String

structure Choice (M D R : Type) where
  payload : Payload M R
  mode : Mode
  reason : String
  messages : List M
  pending : Option (Pending M D)

structure Selection (M : Type) where
  mode : Mode
  reason : String
  requestMessages : List M
  parentRevision : ℕ

def Selection.full (fullMessages : List M) (reason : String) : Selection M where
  mode := .reset
  reason := reason
  requestMessages := fullMessages
  parentRevision := 0

variable [DecidableEq M] [DecidableEq D]

/-- Delta or reset, and what is sent. -/
def Env.select (state : SessionState M D) (fullMessages : List M)
    (fullHashes : List (Option D)) (toolsHash : D) (options : ChooseOptions) : Selection M :=
  if options.forceReset then
    .full fullMessages "delta rejected by server; retrying full reset"
  else if state.revision > 0 ∧ state.messageHashes.length > 0 then
    if state.toolsHash ≠ toolsHash then
      .full fullMessages "tool schema changed; full reset"
    else if ¬ state.messageHashes <+: fullHashes then
      .full fullMessages "message prefix changed; full reset"
    else
      let appended := fullMessages.drop state.messageHashes.length
      let n := appended.length
      if !options.allowDelta then
        .full fullMessages "stateful disabled; full reset"
      else if n = 0 then
        .full fullMessages "no new messages; full reset"
      else if appended.all env.isDeltaRole then
        let includesUser := env.hasUserMessage appended
        if !includesUser ∨ options.userTurnPolicy = .delta then
          { mode := .delta
            reason :=
              if includesUser then s!"user-turn delta ({n} new message(s))"
              else s!"append-only delta ({n} new message(s))"
            requestMessages := appended
            parentRevision := state.revision }
        else
          .full fullMessages s!"new user turn reset ({n} new message(s))"
      else
        .full fullMessages "append contained assistant/system replay; full reset"
  else
    .full fullMessages "initial request; full reset"

/-- The array of the messages; anything else counts as none. -/
def Request.fullMessages (request : Request M R) : List M := request.messages.getD []

def Env.requestToolsHash (request : Request M R) : D :=
  env.sha1 (match request.tools with
    | .undefined | .null => .arr []
    | tools => tools)

/-- The choice for a session that is active. -/
def Env.choose (state : SessionState M D) (fullHashes : List (Option D))
    (request : Request M R) (options : ChooseOptions) : Choice M D R :=
  let fullMessages := request.fullMessages
  let toolsHash := env.requestToolsHash request
  let selected := env.select state fullMessages fullHashes toolsHash options
  { payload :=
      { rest := request.rest
        tools := request.tools
        messages := selected.requestMessages
        delta := if selected.mode = .delta then some selected.requestMessages else none
        stateful := some
          { sessionId := state.sessionId
            mode := selected.mode
            parentRevision := selected.parentRevision
            reason := selected.reason
            fullMessages := fullMessages.length
            sentMessages := selected.requestMessages.length
            previousMessages := state.messageHashes.length
            storedRevision := state.revision } }
    mode := selected.mode
    reason := selected.reason
    messages := selected.requestMessages
    pending := some
      { mode := selected.mode
        parentRevision := selected.parentRevision
        requestMessages := selected.requestMessages
        fullMessages := fullMessages
        fullHashes := some fullHashes
        toolsHash := toolsHash
        sessionId := state.sessionId } }

/-- The choice without an active session. -/
def inactiveChoice (request : Request M R) : Choice M D R where
  payload :=
    { rest := request.rest
      tools := request.tools
      messages := request.fullMessages
      delta := none
      stateful := none }
  mode := .reset
  reason := "session not active; full reset"
  messages := request.fullMessages
  pending := none

def Env.choosePayload (manager : AgentSessionManager M D) (request : Request M R)
    (options : ChooseOptions) : Choice M D R × AgentSessionManager M D :=
  let choice :=
    match manager.state, manager.active with
    | some state, true =>
        env.choose state (env.hashFullMessages manager request.fullMessages) request options
    | _, _ => inactiveChoice request
  (choice, { manager with lastMode := some choice.mode, lastReason := choice.reason })

/-! ### Commits -/

/-- Appends the request messages and the response to the committed state. -/
def Env.commitState (state : SessionState M D) (pending : Pending M D) (assistant : M) :
    SessionState M D :=
  let previousMessages :=
    match pending.mode with
    | .delta => state.messages
    | .reset => []
  let messages := previousMessages ++ pending.requestMessages ++ [assistant]
  let hashed := messages.map fun msg => some (env.hashMessage msg)
  let nextHashes :=
    match pending.mode, pending.fullHashes with
    | .reset, some fullHashes =>
        if fullHashes.length = pending.requestMessages.length then
          fullHashes ++ [some (env.hashMessage assistant)]
        else hashed
    | .delta, some fullHashes => fullHashes ++ [some (env.hashMessage assistant)]
    | _, none => hashed
  { state with
    revision :=
      match pending.mode with
      | .delta => pending.parentRevision + 1
      | .reset => state.revision + 1
    messages := messages
    messageHashes := nextHashes
    toolsHash := pending.toolsHash }

/-- The first argument of a commit; a mode other than `delta` counts as `reset`. -/
inductive Committed (M D : Type) where
  | pending (chosen : Option (Pending M D))
  | legacy (mode : Mode) (requestMessages : List M)

def Committed.resolve (state : SessionState M D) : Committed M D → Option (Pending M D)
  | .pending chosen => chosen
  | .legacy mode requestMessages => some
      { mode := mode
        parentRevision := if mode = .delta then state.revision else 0
        requestMessages := requestMessages
        fullMessages := []
        fullHashes := none
        toolsHash := state.toolsHash
        sessionId := state.sessionId }

def Env.commit (manager : AgentSessionManager M D) (committed : Committed M D)
    (assistant : Option M) : AgentSessionManager M D :=
  match manager.state with
  | none => manager
  | some state =>
    match committed.resolve state, assistant with
    | some pending, some assistant =>
        { manager with state := some (env.commitState state pending assistant) }
    | _, _ => manager

end

end Ds4Studio.Web
