import Mathlib.Data.List.Basic

/-!
The state of the wrapper: the live session, the mode it runs in, and for each mode what
is kept of a session that was frozen. Sessions are written to memory or to a file and
read back; both can fail, and a session that fills its context is never read back.
-/

namespace Ds4Studio.Wrapper

inductive Mode where
  | server | agent
deriving DecidableEq

inductive WrapState where
  | starting | ready | busy | switching | error | stopping
deriving DecidableEq

inductive FrozenKind where
  | none | ram | disk
deriving DecidableEq

/-- The options, and the size of the payload of a valid session. -/
structure Config where
  configuredCtxSize : ℕ
  preferRamFreeze : Bool
  ramFreezeMaxBytes : ℕ
  payloadBytes : List ℕ → ℕ

/-- A session, with the mode it was made for. -/
structure Session where
  mode : Mode
  tokens : List ℕ
  checkpointValid : Bool

def Session.payloadBytes (cfg : Config) (session : Session) : ℕ :=
  if session.checkpointValid then cfg.payloadBytes session.tokens else 0

/-- Whether a session is stored in memory when it is frozen. -/
def Session.freezesToRam (cfg : Config) (session : Session) : Bool :=
  cfg.preferRamFreeze && 0 < session.payloadBytes cfg &&
    session.payloadBytes cfg ≤ cfg.ramFreezeMaxBytes

/-- What is known of the session of a mode. A snapshot that was torn holds no tokens. -/
structure SessionMeta where
  ram : Option (List ℕ)
  frozenKind : FrozenKind
  diskPath : String
  sessionExists : Bool
  active : Bool
  tokens : ℕ

def SessionMeta.empty : SessionMeta := ⟨none, .none, "", false, false, 0⟩

structure Wrap where
  activeSession : Option Session
  activeMode : Mode
  state : WrapState
  busy : Bool
  serverMeta : SessionMeta
  agentMeta : SessionMeta
  /-- Whether the agent runtime is there. -/
  agentRuntime : Bool
  disk : String → Option (List ℕ)
  /-- Sessions that are neither freed nor reachable any more. -/
  leaked : List Session

def Wrap.sessionMeta (w : Wrap) : Mode → SessionMeta
  | .server => w.serverMeta
  | .agent => w.agentMeta

def Wrap.setMeta (w : Wrap) (mode : Mode) (m : SessionMeta) : Wrap :=
  match mode with
  | .server => { w with serverMeta := m }
  | .agent => { w with agentMeta := m }

/-- `active_session` is overwritten; the session it pointed to is not freed. -/
def Wrap.publish (w : Wrap) (session : Session) : Wrap :=
  { w with activeSession := some session, leaked := w.activeSession.toList ++ w.leaked }

/-- `ds4_wrapper_init` and `ds4_wrapper_startup_session` -/
def startupSession (mode : Mode) (disk : String → Option (List ℕ)) : Wrap :=
  Wrap.setMeta
    { activeSession := some ⟨mode, [], false⟩
      activeMode := mode
      state := .ready
      busy := false
      serverMeta := .empty
      agentMeta := .empty
      agentRuntime := false
      disk := disk
      leaked := [] }
    mode { SessionMeta.empty with active := true, sessionExists := true }

/-! ### Requests -/

inductive Refusal where
  | switching
  | wrongMode (active required : Mode)
  | busy
  | noSession

def Mode.name : Mode → String
  | .server => "server"
  | .agent => "agent"

def Refusal.code : Refusal → ℕ
  | .noSession => 503
  | _ => 409

def Refusal.message : Refusal → String
  | .switching => "wrapper is switching mode"
  | .wrongMode active required =>
      "wrong mode: active=" ++ active.name ++ " required=" ++ required.name
  | .busy => "wrapper is busy"
  | .noSession => "no active session (frozen or not loaded)"

def enterRequest (required : Mode) (w : Wrap) : Except Refusal Wrap :=
  if w.state = .switching then .error .switching
  else if w.activeMode ≠ required then .error (.wrongMode w.activeMode required)
  else if w.busy then .error .busy
  else if w.activeSession.isNone then .error .noSession
  else .ok { w with busy := true, state := .busy }

def leaveRequest (w : Wrap) : Wrap :=
  { w with
    busy := false
    state := if w.state = .error ∨ w.state = .stopping then w.state else .ready }

theorem enterRequest_ok {required : Mode} {w w' : Wrap} (h : enterRequest required w = .ok w') :
    w.activeMode = required ∧ w.busy = false ∧ w' = { w with busy := true, state := .busy } := by
  unfold enterRequest at h
  split at h
  · cases h
  · split at h
    · cases h
    · rename_i hmode
      split at h
      · cases h
      · rename_i hbusy
        split at h
        · cases h
        · cases h
          exact ⟨not_not.1 hmode, by simpa using hbusy, rfl⟩

/-! ### Freeze and thaw -/

/-- How storing a session ends. A snapshot in memory may be left torn. -/
inductive StoreOutcome where
  | stored
  | failed (torn : Option (List ℕ))

def StoreOutcome.isStored : StoreOutcome → Bool
  | .stored => true
  | .failed _ => false

/-- Nothing can be renamed to the empty path. -/
def storeDisk (w : Wrap) (path : String) (session : Session) (out : StoreOutcome) : Option Wrap :=
  match out with
  | .stored =>
      if session.checkpointValid ∧ path ≠ "" then
        some { w with disk := Function.update w.disk path (some session.tokens) }
      else none
  | .failed _ => none

def freezeActiveSession (cfg : Config) (out : StoreOutcome) (w : Wrap) : Wrap × Bool :=
  match w.activeSession with
  | none => (w, true)
  | some session =>
      let m := w.sessionMeta w.activeMode
      if session.tokens = [] then
        ({ w.setMeta w.activeMode
            { m with sessionExists := false, frozenKind := .none, tokens := 0 } with
            activeSession := none }, true)
      else if session.freezesToRam cfg then
        match out with
        | .failed torn => (w.setMeta w.activeMode { m with ram := torn }, false)
        | .stored =>
            ({ w.setMeta w.activeMode
                { m with
                  ram := some session.tokens
                  frozenKind := .ram
                  sessionExists := true
                  active := false
                  tokens := session.tokens.length } with
                activeSession := none }, true)
      else
        match storeDisk w m.diskPath session out with
        | none => (w, false)
        | some w =>
            ({ w.setMeta w.activeMode
                { m with
                  frozenKind := .disk
                  sessionExists := true
                  active := false
                  tokens := session.tokens.length } with
                activeSession := none }, true)

/-- The tokens a thawed session has, if what is kept of it can be read back. -/
def thawedTokens (cfg : Config) (w : Wrap) (target : Mode) : Option (List ℕ) :=
  let m := w.sessionMeta target
  if m.sessionExists = false ∨ m.frozenKind = .none then some []
  else
    (if m.frozenKind = .ram then m.ram else w.disk m.diskPath).filter fun tokens =>
      tokens.length < cfg.configuredCtxSize

/-- Creating the session and reading it back may each fail. -/
def thawSession (cfg : Config) (created loaded : Bool) (target : Mode) (w : Wrap) : Wrap × Bool :=
  let m := w.sessionMeta target
  if !created then (w, false)
  else if m.sessionExists = false ∨ m.frozenKind = .none then
    (w.publish ⟨target, [], false⟩, true)
  else
    match thawedTokens cfg w target with
    | none => (w, false)
    | some tokens =>
        if loaded then
          ((w.publish ⟨target, tokens, true⟩).setMeta target { m with active := true }, true)
        else (w, false)

/-! ### What freezing and thawing leave alone -/

@[simp] theorem sessionMeta_setMeta_self (w : Wrap) (mode : Mode) (m : SessionMeta) :
    (w.setMeta mode m).sessionMeta mode = m := by
  cases mode <;> rfl

theorem sessionMeta_setMeta_of_ne (w : Wrap) {mode other : Mode} (h : other ≠ mode)
    (m : SessionMeta) : (w.setMeta mode m).sessionMeta other = w.sessionMeta other := by
  cases mode <;> cases other <;> first | rfl | exact absurd rfl h

/-- Neither the mode nor the flags, the runtime, the leaked sessions or the paths change. -/
structure Keeps (w w' : Wrap) : Prop where
  activeMode : w'.activeMode = w.activeMode
  state : w'.state = w.state
  busy : w'.busy = w.busy
  agentRuntime : w'.agentRuntime = w.agentRuntime
  leaked : w'.leaked = w.leaked
  paths : ∀ mode, (w'.sessionMeta mode).diskPath = (w.sessionMeta mode).diskPath

theorem Keeps.rfl (w : Wrap) : Keeps w w :=
  ⟨Eq.refl _, Eq.refl _, Eq.refl _, Eq.refl _, Eq.refl _, fun _ => Eq.refl _⟩

theorem Keeps.trans {w₁ w₂ w₃ : Wrap} (h : Keeps w₁ w₂) (h' : Keeps w₂ w₃) : Keeps w₁ w₃ where
  activeMode := h'.activeMode.trans h.activeMode
  state := h'.state.trans h.state
  busy := h'.busy.trans h.busy
  agentRuntime := h'.agentRuntime.trans h.agentRuntime
  leaked := h'.leaked.trans h.leaked
  paths := fun mode => (h'.paths mode).trans (h.paths mode)

theorem keeps_setMeta (w : Wrap) (mode : Mode) {m : SessionMeta}
    (hpath : m.diskPath = (w.sessionMeta mode).diskPath) : Keeps w (w.setMeta mode m) := by
  constructor
  case paths =>
    intro other
    by_cases h : other = mode
    · rw [h, sessionMeta_setMeta_self, hpath]
    · rw [sessionMeta_setMeta_of_ne w h]
  all_goals cases mode <;> exact Eq.refl _

theorem Keeps.drop {w w' : Wrap} (h : Keeps w w') : Keeps w { w' with activeSession := none } where
  activeMode := h.activeMode
  state := h.state
  busy := h.busy
  agentRuntime := h.agentRuntime
  leaked := h.leaked
  paths := by
    intro mode
    rw [← h.paths mode]
    cases mode <;> exact Eq.refl _

variable (cfg : Config)

/-- What can be thawed depends on the record of the mode and on the files only. -/
theorem thawedTokens_congr {w w' : Wrap} {mode : Mode}
    (hmeta : w'.sessionMeta mode = w.sessionMeta mode) (hdisk : w'.disk = w.disk) :
    thawedTokens cfg w' mode = thawedTokens cfg w mode := by
  simp only [thawedTokens, hmeta, hdisk]

theorem thawedTokens_setMeta_of_ne (w : Wrap) {mode other : Mode} (h : other ≠ mode)
    (m : SessionMeta) : thawedTokens cfg (w.setMeta mode m) other = thawedTokens cfg w other := by
  apply thawedTokens_congr
  · exact sessionMeta_setMeta_of_ne w h m
  · cases mode <;> rfl

theorem thawedTokens_drop (w : Wrap) (mode : Mode) :
    thawedTokens cfg { w with activeSession := none } mode = thawedTokens cfg w mode := by
  apply thawedTokens_congr
  · cases mode <;> rfl
  · rfl

/-- Without a path for the file, freezing either fails and leaves the session live, or
frees a session that is empty or fits into memory. It can be thawed if it leaves room in
its context. -/
theorem freezeActiveSession_cases (out : StoreOutcome) {w : Wrap} {session : Session}
    (hsession : w.activeSession = some session)
    (hpath : (w.sessionMeta w.activeMode).diskPath = "") :
    ∃ w', Keeps w w' ∧
      (∀ mode, mode ≠ w.activeMode → thawedTokens cfg w' mode = thawedTokens cfg w mode) ∧
      ((freezeActiveSession cfg out w = (w', false) ∧ session.tokens ≠ [] ∧
          w'.activeSession = some session) ∨
        (freezeActiveSession cfg out w = (w', true) ∧ w'.activeSession = none ∧
          (session.tokens = [] ∨ out.isStored = true ∧ session.freezesToRam cfg = true) ∧
          (session.tokens.length < cfg.configuredCtxSize ∨ session.tokens = [] →
            thawedTokens cfg w' w.activeMode = some session.tokens))) := by
  unfold freezeActiveSession
  simp only [hsession]
  split
  · rename_i hempty
    refine ⟨_, ?_, ?_, Or.inr ⟨rfl, rfl, Or.inl hempty, ?_⟩⟩
    · exact (keeps_setMeta w w.activeMode (by rfl)).drop
    · intro mode hmode
      rw [thawedTokens_drop, thawedTokens_setMeta_of_ne cfg w hmode]
    · intro _
      rw [thawedTokens_drop]
      simp [thawedTokens, hempty]
  · rename_i hne
    split
    · rename_i hram
      split
      · refine ⟨_, ?_, ?_, Or.inl ⟨rfl, hne, ?_⟩⟩
        · exact keeps_setMeta w w.activeMode (by rfl)
        · intro mode hmode
          rw [thawedTokens_setMeta_of_ne cfg w hmode]
        · rw [← hsession]
          cases w.activeMode <;> rfl
      · refine ⟨_, ?_, ?_, Or.inr ⟨rfl, rfl, Or.inr ⟨rfl, hram⟩, ?_⟩⟩
        · exact (keeps_setMeta w w.activeMode (by rfl)).drop
        · intro mode hmode
          rw [thawedTokens_drop, thawedTokens_setMeta_of_ne cfg w hmode]
        · intro hroom
          rw [thawedTokens_drop]
          have hlt := hroom.resolve_right hne
          simp [thawedTokens, hlt]
    · -- Without a path no file is written.
      have hnone : storeDisk w (w.sessionMeta w.activeMode).diskPath session out = none := by
        unfold storeDisk
        cases out <;> simp [hpath]
      rw [hnone]
      exact ⟨w, Keeps.rfl w, fun _ _ => rfl, Or.inl ⟨rfl, hne, hsession⟩⟩

/-- Thawing fails and leaves all as it was, or publishes the session that was kept. -/
theorem thawSession_cases (created loaded : Bool) (target : Mode) {w : Wrap}
    (hsession : w.activeSession = none) :
    thawSession cfg created loaded target w = (w, false) ∨
      ∃ w' tokens checkpointValid, thawSession cfg created loaded target w = (w', true) ∧
        Keeps w w' ∧ w'.activeSession = some ⟨target, tokens, checkpointValid⟩ ∧
        thawedTokens cfg w target = some tokens ∧
        ∀ mode, thawedTokens cfg w' mode = thawedTokens cfg w mode := by
  have hpublish : ∀ session, Keeps w (w.publish session) := by
    intro session
    refine ⟨rfl, rfl, rfl, rfl, ?_, ?_⟩
    · simp [Wrap.publish, hsession]
    · intro mode
      cases mode <;> rfl
  have hthawed : ∀ session mode, thawedTokens cfg (w.publish session) mode =
      thawedTokens cfg w mode := by
    intro session mode
    apply thawedTokens_congr
    · cases mode <;> rfl
    · rfl
  unfold thawSession
  cases created with
  | false => exact Or.inl rfl
  | true =>
    simp only [Bool.not_true, Bool.false_eq_true, if_false]
    split
    · rename_i hnew
      refine Or.inr ⟨_, [], false, rfl, hpublish _, rfl, ?_, hthawed _⟩
      simp only [thawedTokens, hnew, if_true]
    · rename_i hkept
      split
      · exact Or.inl rfl
      · rename_i tokens htokens
        cases loaded with
        | false => exact Or.inl rfl
        | true =>
          refine Or.inr ⟨_, tokens, true, rfl, ?_, ?_, htokens, ?_⟩
          · refine (hpublish _).trans (keeps_setMeta _ target ?_)
            cases target <;> rfl
          · cases target <;> rfl
          · intro mode
            rw [← hthawed ⟨target, tokens, true⟩ mode]
            by_cases hmode : mode = target
            · -- Only the flag of the record changes, which nothing is read back from.
              subst hmode
              cases mode <;> rfl
            · rw [thawedTokens_setMeta_of_ne cfg _ hmode]

end Ds4Studio.Wrapper
