import Ds4Studio.Evolution.LedgerFile
import Ds4Studio.Lib.Run
import Mathlib.Data.List.Forall2

/-!
Runs of operations on one ledger. A lock serves the operations one after another; a write may be cut
at any byte, and the process may be restarted.
-/

namespace Ds4Studio.EvolutionLedger

open Bytes Json List Option
open Evolution (RunState assertTransition)

variable {host : Host} {runId : JsString}

/-! ### Operations -/

inductive Op where
  | append (input : Input)
  | transition (target : JsString) (options : TransitionOptions)
  | read (recoverTail : Bool)
  | load

/-- The input that an operation appends behind the events. -/
def Op.input (events : List Value) : Op → Option Input
  | .append input => some input
  | .transition target options => transitionInput events target options
  | .read _ | .load => none

def Op.recoverTail : Op → Bool
  | .read recoverTail => recoverTail
  | _ => true

structure Store where
  file : Bytes
  queue : List Op
  /-- The events whose write has begun. -/
  begun : List Value
  acknowledged : List Value

inductive Action where
  | submit (op : Op)
  /-- The first operation is run, with what the factory and the clock give; the number of bytes that
  are written if the write is cut. -/
  | serve (freshId now : JsString) (cut : Option ℕ)
  | restart

/-- The event that an operation appends; `none` where it appends none or throws. -/
def eventOf (host : Host) (runId freshId now : JsString) (op : Op) (file : Bytes) : Option Value :=
  match readEvents host runId op.recoverTail file with
  | none => none
  | some events =>
      match op.input events with
      | none => none
      | some input => newEvent host runId freshId now events input

def serve (host : Host) (runId freshId now : JsString) (cut : Option ℕ) (op : Op) (s : Store) :
    Store :=
  let file := fileAfterRead op.recoverTail s.file
  match eventOf host runId freshId now op s.file, cut with
  | none, _ => { s with file := file, queue := s.queue.tail }
  | some event, none =>
      ⟨file ++ lineOf event, s.queue.tail, s.begun ++ [event], s.acknowledged ++ [event]⟩
  | some event, some n =>
      ⟨file ++ (lineOf event).take n, s.queue.tail, s.begun ++ [event], s.acknowledged⟩

inductive Step (host : Host) (runId : JsString) : Store → Action → Store → Prop
  | submit (s : Store) (op : Op) :
      Step host runId s (.submit op) { s with queue := s.queue ++ [op] }
  | serve (s : Store) {op : Op} {rest : List Op} {freshId now : JsString} (cut : Option ℕ) :
      s.queue = op :: rest → freshId ≠ [] → host.dateParses now = true →
      Step host runId s (.serve freshId now cut) (serve host runId freshId now cut op s)
  | restart (s : Store) : Step host runId s .restart { s with queue := [] }

/-- The input of the first event of a run. -/
def creationInput (createdAt contractHash : JsString) : Input where
  revision := natural 0
  type := .str (js "RUN_CREATED")
  timestamp := .str createdAt
  payload := .obj [(js "state", .str (js "CREATED")),
    (js "taskContractHash", .str contractHash)]

/-- A run that has been created. -/
def Created (host : Host) (runId contractHash : JsString) (s : Store) : Prop :=
  ∃ freshId createdAt event, hex64 contractHash = true ∧ freshId ≠ [] ∧
    host.dateParses createdAt = true ∧
    newEvent host runId freshId createdAt [] (creationInput createdAt contractHash) = some event ∧
      s = ⟨lineOf event, [], [event], [event]⟩

/-- `loadRun`, without what the manifest adds to it. -/
def loadRun (host : Host) (runId contractHash : JsString) (file : Bytes) : Option (RunState × ℕ) :=
  match readEvents host runId true file with
  | none => none
  | some events =>
      match reconstruct events with
      | none => none
      | some run =>
          if hexEqual (get "taskContractHash" (get "payload" (events.headD .undefined)))
              (.str contractHash) then some run
          else none

/-! ### What a ledger keeps -/

/-- The ledger can be read and loaded. It holds every acknowledged event, up to the order of the
members, and no event that no append has begun to write. -/
structure Keeps (host : Host) (runId contractHash : JsString) (s : Store) (events : List Value) :
    Prop where
  read : readEvents host runId true s.file = some events
  chained : Chained host runId 1 zeroHash events
  acknowledged : List.SublistForall₂ Alike s.acknowledged events
  begun : List.SublistForall₂ (fun event written => Alike written event) events s.begun
  load : ∃ state, loadRun host runId contractHash s.file = some (state,
      (events.tail.map revisionOf).foldl max 0) ∧
    List.IsChain Allowed (RunState.created :: targets events) ∧
    (RunState.created :: targets events).getLast? = some state

/-- An input that can be read back and goes on from the state of the run. -/
structure InputSound (host : Host) (events : List Value) (input : Input) : Prop where
  eventId : toText input.eventId ≠ []
  timestamp : input.timestamp = .undefined ∨ input.timestamp = .null ∨
    host.dateParses (toText input.timestamp) = true
  transition : isStr "STATE_TRANSITION" input.type = true → ∃ run, reconstruct events = some run ∧
    (transitionTarget run.1 (orElse (.obj []) input.payload)).isSome = true
  kept : Kept input.type ∧ Kept input.timestamp ∧ Kept input.payload

def OpSound (host : Host) (events : List Value) : Op → Prop
  | .append input => InputSound host events input
  | .transition _ options => Kept options.kind ∧ Kept options.reasonCode ∧ Kept options.details
  | .read _ | .load => True

/-- The operation that is served is sound for the events in front of it. -/
def Sound (host : Host) (runId : JsString) (s : Store) : Action → Prop
  | .serve _ _ _ => ∀ op rest events, s.queue = op :: rest →
      readEvents host runId true s.file = some events → OpSound host events op
  | .submit _ | .restart => True

/-! ### Every run -/

variable {events : List Value}

theorem transitionInput_sound {target : JsString} {options : TransitionOptions} {input : Input}
    (h : transitionInput events target options = some input)
    (hkept : Kept options.kind ∧ Kept options.reasonCode ∧ Kept options.details) :
    InputSound host events input := by
  unfold transitionInput at h
  split at h
  case h_1 state revision target hrun _ =>
    split at h
    case isTrue hassert =>
      cases h
      have hid : toText .undefined ≠ [] := by decide
      refine ⟨hid, .inl rfl, fun _ => ⟨_, hrun, ?_⟩, trivial, trivial,
        kept_transitionPayload _ _ hkept⟩
      have htarget := transitionTarget_payload hassert
      exact isSome_iff_exists.mpr ⟨_, htarget⟩
    case isFalse => cases h
  case h_2 => cases h

theorem sublistForall₂_append {R : Value → Value → Prop} {xs ys : List Value}
    (h : List.SublistForall₂ R xs ys) {x y : Value} (hxy : R x y) :
    List.SublistForall₂ R (xs ++ [x]) (ys ++ [y]) := by
  obtain ⟨l, hl, hsub⟩ := sublistForall₂_iff.mp h
  exact sublistForall₂_iff.mpr
    ⟨l ++ [y], rel_append hl (.cons hxy .nil), hsub.append (List.Sublist.refl _)⟩

theorem sublistForall₂_concat {R : Value → Value → Prop} {xs ys : List Value}
    (h : List.SublistForall₂ R xs ys) (y : Value) : List.SublistForall₂ R xs (ys ++ [y]) := by
  obtain ⟨l, hl, hsub⟩ := sublistForall₂_iff.mp h
  exact sublistForall₂_iff.mpr ⟨l, hl, hsub.trans (sublist_append_left _ _)⟩

/-- The file holds the lines of the events and a part of one more. -/
structure Holds (host : Host) (runId contractHash : JsString) (s : Store) (events : List Value)
    (tail : Bytes) : Prop where
  file : s.file = fileOf events ++ tail
  tail : newline ∉ tail
  chained : Chained host runId 1 zeroHash events
  run : ∃ run, reconstruct events = some run
  contract : hexEqual (get "taskContractHash" (get "payload" (events.headD .undefined)))
    (.str contractHash) = true
  acknowledged : List.SublistForall₂ Alike s.acknowledged events
  begun : List.SublistForall₂ (fun event written => Alike written event) events s.begun

variable {contractHash : JsString} {s t : Store} {events : List Value} {tail : Bytes}

theorem Holds.read (h : Holds host runId contractHash s events tail) :
    readEvents host runId true s.file = some events := by
  rw [h.file]
  exact readEvents_chained h.chained h.tail

theorem Holds.keeps (h : Holds host runId contractHash s events tail) :
    Keeps host runId contractHash s events := by
  obtain ⟨⟨state, revision⟩, hrun⟩ := h.run
  obtain ⟨hchain, hlast, hrevision⟩ := reconstruct_spec hrun
  refine ⟨h.read, h.chained, h.acknowledged, h.begun, state, ?_, hchain, hlast⟩
  unfold loadRun
  rw [h.read]
  simp only
  rw [hrun]
  simp only
  rw [if_pos h.contract, ← hrevision]

variable {freshId now : JsString} {event : Value}

theorem StoredEvent.line {input : Input} {stored : Value}
    (h : StoredEvent host runId freshId now events input event stored) :
    lineOf event = stringify stored ++ [newline] := by
  unfold lineOf canonicalJson
  rw [h.canonical]
  rfl

/-- The event of a sound input is stored as it is and goes on the chain. -/
theorem stored_of_sound (hchained : Chained host runId 1 zeroHash events) {input : Input}
    (hsound : InputSound host events input) (hid : freshId ≠ []) (hnow : host.dateParses now = true)
    (hnew : newEvent host runId freshId now events input = some event) :
    ∃ stored, StoredEvent host runId freshId now events input event stored ∧ Alike event stored ∧
      Chained host runId 1 zeroHash (events ++ [stored]) := by
  obtain ⟨text, hash, hspec⟩ := newEvent_spec hnew
  have hlast : IsHash (lastHash events) := by
    rw [hchained.lastHash_eq]
    exact hchained.isHash zeroHash_isHash
  have hid : toText (orElse (.str freshId) input.eventId) ≠ [] := by
    have hgiven := hsound.eventId
    cases hinput : input.eventId
    case undefined => exact hid
    case null => exact hid
    all_goals
      rw [hinput] at hgiven
      exact hgiven
  have hdate : host.dateParses (toText (orElse (.str now) input.timestamp)) = true := by
    rcases hsound.timestamp with hgiven | hgiven | hgiven
    · rw [hgiven]
      exact hnow
    · rw [hgiven]
      exact hnow
    · cases hinput : input.timestamp
      case undefined => exact hnow
      case null => exact hnow
      all_goals
        rw [hinput] at hgiven
        exact hgiven
  obtain ⟨stored, hstored⟩ := hspec.stored hlast
  refine ⟨stored, hstored, ?_, ?_⟩
  · obtain ⟨number, hnumber⟩ := toNatural_num hspec.revision
    refine Kept.alike ?_ hstored.canonical
    rw [hspec.event]
    exact kept_event hlast (by rw [hnumber]; trivial) hsound.kept
  · refine hchained.concat (canonicalValue_inOrder hstored.canonical) ?_
    rw [← hchained.lastHash_eq, Nat.add_comm, hstored.valid, hdate]
    simp [truthy, hid]

theorem reconstruct_stored {run : RunState × ℕ} (hrun : reconstruct events = some run)
    {input : Input} {stored : Value} (hsound : InputSound host events input)
    (hstored : StoredEvent host runId freshId now events input event stored) :
    ∃ run, reconstruct (events ++ [stored]) = some run := by
  refine reconstruct_append hrun stored fun htransition => ?_
  have htype : isStr "STATE_TRANSITION" input.type = true := by
    rw [← Stored.isStr (.inr hstored.type)]
    exact htransition
  obtain ⟨run', hrun', htarget⟩ := hsound.transition htype
  obtain rfl : run' = run := some.inj (hrun'.symm.trans hrun)
  have hkept : Kept (orElse (.obj []) input.payload) := kept_orElse trivial hsound.kept.2.2
  rw [transitionTarget_stored (.inr hstored.payload) hkept]
  exact htarget

theorem fileOf_append (events more : List Value) :
    fileOf (events ++ more) = fileOf events ++ fileOf more :=
  flatMap_append

theorem fileOf_singleton (h : InOrder event) : fileOf [event] = stringify event ++ [newline] := by
  unfold fileOf
  rw [flatMap_singleton, lineOf_inOrder h]

theorem headD_append {run : RunState × ℕ} (h : reconstruct events = some run) (more : List Value)
    (d : Value) : (events ++ more).headD d = events.headD d := by
  cases events with
  | nil => cases h
  | cons first rest => rfl

theorem Holds.repaired (h : Holds host runId contractHash s events tail) (recoverTail : Bool)
    (queue : List Op) : ∃ tail',
      Holds host runId contractHash
        { s with file := fileAfterRead recoverTail s.file, queue := queue } events tail' := by
  unfold fileAfterRead
  split
  case isTrue =>
    refine ⟨[], ⟨?_, not_mem_nil, h.chained, h.run, h.contract, h.acknowledged, h.begun⟩⟩
    rw [h.file, recovered_append h.tail (fileOf_last events), append_nil]
  case isFalse =>
    exact ⟨tail, h.file, h.tail, h.chained, h.run, h.contract, h.acknowledged, h.begun⟩

theorem eventOf_spec {op : Op} {file : Bytes}
    (h : eventOf host runId freshId now op file = some event) :
    op.recoverTail = true ∧ ∃ events input, readEvents host runId true file = some events ∧
      op.input events = some input ∧ newEvent host runId freshId now events input = some event := by
  have htail : ∀ {events input}, op.input events = some input → op.recoverTail = true := by
    intro events input hinput
    cases op with
    | append | transition => rfl
    | read | load => cases hinput
  unfold eventOf at h
  split at h
  case h_1 => cases h
  case h_2 events hread =>
    split at h
    case h_1 => cases h
    case h_2 input hinput =>
      rw [htail hinput] at hread
      exact ⟨htail hinput, events, input, hread, hinput, h⟩

theorem OpSound.input {op : Op} {input : Input} (h : OpSound host events op)
    (hinput : op.input events = some input) : InputSound host events input := by
  cases op with
  | append given =>
    obtain rfl := some.inj hinput
    exact h
  | transition target options => exact transitionInput_sound hinput h
  | read | load => cases hinput

/-- The first bytes of a line are the line, or a part without a line end. -/
theorem take_line (v : Value) (n : ℕ) :
    (stringify v ++ [newline]).take n = stringify v ++ [newline] ∨
      newline ∉ (stringify v ++ [newline]).take n := by
  by_cases hn : n ≤ (stringify v).length
  · right
    rw [take_append_of_le_length hn]
    exact fun hmem => newline_not_mem v (mem_of_mem_take hmem)
  · left
    refine take_of_length_le ?_
    rw [length_append, length_singleton]
    omega

theorem Holds.serve (h : Holds host runId contractHash s events tail) {op : Op}
    (hid : freshId ≠ []) (hnow : host.dateParses now = true)
    (cut : Option ℕ) (hsound : OpSound host events op) :
    ∃ events' tail', Holds host runId contractHash (serve host runId freshId now cut op s)
      events' tail' := by
  unfold EvolutionLedger.serve
  cases hevent : eventOf host runId freshId now op s.file with
  | none => exact ⟨events, h.repaired op.recoverTail s.queue.tail⟩
  | some event =>
    obtain ⟨hrecover, evs, input, hread, hinput, hnew⟩ := eventOf_spec hevent
    obtain rfl : evs = events := some.inj (hread.symm.trans h.read)
    have hsound := hsound.input hinput
    obtain ⟨run, hrun⟩ := h.run
    obtain ⟨stored, hstored, halike, hchained⟩ := stored_of_sound h.chained hsound hid hnow hnew
    have hgoes := reconstruct_stored hrun hsound hstored
    have hline := hstored.line
    have hfile : fileAfterRead op.recoverTail s.file = fileOf evs := by
      unfold fileAfterRead
      rw [if_pos hrecover, h.file, recovered_append h.tail (fileOf_last evs)]
    have hwhole : fileOf (evs ++ [stored]) = fileOf evs ++ lineOf event := by
      rw [fileOf_append, fileOf_singleton (canonicalValue_inOrder hstored.canonical), hline]
    have hcontract : hexEqual
        (get "taskContractHash" (get "payload" ((evs ++ [stored]).headD .undefined)))
        (.str contractHash) = true := by
      rw [headD_append hrun]
      exact h.contract
    have hbegun := sublistForall₂_append (R := fun event written => Alike written event)
      h.begun halike
    cases cut with
    | none =>
      refine ⟨evs ++ [stored], [], ⟨?_, not_mem_nil, hchained, hgoes, hcontract,
        sublistForall₂_append h.acknowledged halike, hbegun⟩⟩
      rw [hfile, hwhole, append_nil]
    | some n =>
      rcases take_line stored n with hall | hpart
      · refine ⟨evs ++ [stored], [], ⟨?_, not_mem_nil, hchained, hgoes, hcontract,
          sublistForall₂_concat h.acknowledged stored, hbegun⟩⟩
        simp only
        rw [hfile, hwhole, hline, hall, append_nil]
      · refine ⟨evs, (stringify stored ++ [newline]).take n, ⟨?_, hpart, h.chained, h.run,
          h.contract, h.acknowledged, sublistForall₂_concat h.begun event⟩⟩
        simp only
        rw [hfile, hline]

theorem Holds.step (h : Holds host runId contractHash s events tail) {a : Action}
    (hstep : Step host runId s a t) (hsound : Sound host runId s a) :
    ∃ events' tail', Holds host runId contractHash t events' tail' := by
  cases hstep with
  | submit op =>
    exact ⟨events, tail, h.file, h.tail, h.chained, h.run, h.contract, h.acknowledged, h.begun⟩
  | serve cut hqueue hid hnow =>
    exact h.serve hid hnow cut (hsound _ _ events hqueue h.read)
  | restart =>
    exact ⟨events, tail, h.file, h.tail, h.chained, h.run, h.contract, h.acknowledged, h.begun⟩

theorem creation_sound {createdAt : JsString} (h : host.dateParses createdAt = true)
    (contractHash : JsString) : InputSound host [] (creationInput createdAt contractHash) := by
  have hid : toText .undefined ≠ [] := by decide
  have htype : ¬ isStr "STATE_TRANSITION" (.str (js "RUN_CREATED")) = true := by decide
  refine ⟨hid, .inr (.inr h), fun hstate => absurd hstate htype, trivial, trivial, ?_⟩
  refine keptMembers_of ["state", "taskContractHash"] rfl (by decide) (by decide) ?_
  simp only [forall_mem_cons]
  exact ⟨trivial, trivial, nofun⟩

theorem creation_holds {freshId createdAt : JsString}
    (hcontract : hex64 contractHash = true) (hid : freshId ≠ [])
    (hdate : host.dateParses createdAt = true)
    (hnew : newEvent host runId freshId createdAt [] (creationInput createdAt contractHash) =
      some event) :
    ∃ stored, canonicalValue event = some stored ∧
      Holds host runId contractHash ⟨lineOf event, [], [event], [event]⟩ [stored] [] := by
  have hsound := creation_sound hdate contractHash
  obtain ⟨stored, hstored, halike, hchained⟩ :=
    stored_of_sound (show Chained host runId 1 zeroHash [] from trivial) hsound hid hdate hnew
  have hparts := fun name => Stored.get (.inr hstored.payload) hsound.kept.2.2 name
  have htype : isStr "RUN_CREATED" (get "type" stored) = true := by
    rw [Stored.isStr (.inr hstored.type)]
    exact decide_eq_true rfl
  have hstate : isStr "CREATED" (get "state" (get "payload" stored)) = true := by
    rw [(hparts "state").isStr]
    exact decide_eq_true rfl
  have hhash : get "taskContractHash" (get "payload" stored) = .str contractHash := by
    have hpart := hparts "taskContractHash"
    exact hpart.str
  refine ⟨stored, hstored.canonical, ?_, not_mem_nil, hchained, ?_, ?_, ?_, ?_⟩
  · rw [fileOf_singleton (canonicalValue_inOrder hstored.canonical), append_nil]
    exact hstored.line
  · rw [reconstruct, if_pos ⟨htype, hstate⟩]
    exact ⟨_, rfl⟩
  · rw [headD_cons, hhash]
    exact hexEqual_self hcontract
  · exact .cons halike .nil
  · exact .cons halike .nil

/-! ### A run with two events -/

def sampleRunId : JsString := js "evo_00000000000000000000"

def sampleTime : JsString := js "2025-01-01T00:00:00.000Z"

def sampleContractHash : JsString := js (String.ofList (replicate 64 'a'))

/-- The text of a core whose event is of the time of the sample. -/
def coreText (eventId payload payloadHash previous sequence type : String) : Bytes :=
  str ("\x7b\"eventId\":\"" ++ eventId ++ "\",\"eventVersion\":\"ds4_evolution_event_v1\"," ++
    "\"payload\":" ++ payload ++ ",\"payloadHash\":\"" ++ payloadHash ++
    "\",\"previousEventHash\":\"" ++ previous ++ "\",\"revision\":0," ++
    "\"runId\":\"evo_00000000000000000000\",\"sequence\":" ++ sequence ++
    ",\"timestamp\":\"2025-01-01T00:00:00.000Z\",\"type\":\"" ++ type ++ "\"\x7d")

def creationText : String :=
  "\x7b\"state\":\"CREATED\",\"taskContractHash\":\"" ++ String.ofList (replicate 64 'a') ++
    "\"\x7d"

def creationPayloadHash : String :=
  "8c3a3e24b6621d5fd51c7b5868397b957ee89dcf28b487cd0bed516b76b4852c"

def creationHash : String := "462c595a686dcc0b4da00d55a857e40c75884b635e37fc98bb3adb533d0ede63"

def emptyHash : String := "44136fa355b3678a1146ad16f7e8649e94fb4fc21fe77e8310c060f61caaff8a"

/-- The digests of the texts that are hashed here. -/
def digests : List (Bytes × String) :=
  [(str creationText, creationPayloadHash),
    (coreText "e1" creationText creationPayloadHash (String.ofList (replicate 64 '0')) "1"
      "RUN_CREATED", creationHash),
    (str "\x7b\x7d", emptyHash),
    (coreText "" "\x7b\x7d" emptyHash creationHash "2" "NOTE",
      "0cc601a67bb6aea019378eb836cf7e1e6a1c5921104bd65138e4b1644440f99b"),
    (coreText "e2" "\x7b\x7d" emptyHash creationHash "2" "NOTE",
      "9a1bac00d236bb3e8155cb8715641e2c40bf0f9686fd45cbb57d98eec4804cc9")]

def sampleSha256 (b : Bytes) : JsString :=
  match digests.find? fun d => d.1 = b with
  | some d => js d.2
  | none => js (String.ofList (replicate 64 '0'))

theorem sampleSha256_hex (b : Bytes) : hex64 (sampleSha256 b) = true := by
  have hall : ∀ d ∈ digests, hex64 (js d.2) = true := by decide
  unfold sampleSha256
  split
  case h_1 d hfind => exact hall d (mem_of_find?_eq_some hfind)
  case h_2 => decide

open Classical in
/-- The value that a text has been printed for. -/
noncomputable def printedValue (b : Bytes) : Option Value :=
  if h : ∃ v, InOrder v ∧ stringify v = b then some h.choose else none

theorem printedValue_stringify (v : Value) (h : InOrder v) :
    printedValue (stringify v) = some v := by
  have hex : ∃ w, InOrder w ∧ stringify w = stringify v := ⟨v, h, rfl⟩
  unfold printedValue
  rw [dif_pos hex]
  obtain ⟨horder, heq⟩ := hex.choose_spec
  rw [stringify_injOn horder.defined h.defined heq]

noncomputable def sampleHost : Host where
  sha256 := sampleSha256
  sha256_hex := sampleSha256_hex
  dateParses s := s = sampleTime
  jsonParse := printedValue
  jsonParse_stringify := printedValue_stringify

def note (eventId : Value) : Input where
  eventId := eventId
  type := .str (js "NOTE")

theorem note_accepted (hlast : IsHash (lastHash events)) (freshId now eventId : JsString) :
    ∃ event, newEvent host runId freshId now events (note (.str eventId)) = some event := by
  obtain ⟨last, hlast, -⟩ := hlast
  have hcanonical : ∀ payloadHash,
      canonicalMembers (newCore runId freshId now events (note (.str eventId)) payloadHash) =
        some (newCore runId freshId now events (note (.str eventId)) payloadHash) := by
    intro payloadHash
    refine (canonicalEvent (sublist_cons_self _ _) (newCore_names _ _ _)).mpr ?_
    unfold newCore
    rw [hlast]
    exact .cons ⟨rfl, rfl⟩ (.cons ⟨rfl, rfl⟩ (.cons ⟨rfl, rfl⟩ (.cons ⟨rfl, rfl⟩ (.cons ⟨rfl, rfl⟩
      (.cons ⟨rfl, rfl⟩ (.cons ⟨rfl, rfl⟩ (.cons ⟨rfl, rfl⟩ (.cons ⟨rfl, rfl⟩
        (.cons ⟨rfl, rfl⟩ .nil)))))))))
  have hhash : ∀ payloadHash, host.hashJson
      (.obj (newCore runId freshId now events (note (.str eventId)) payloadHash)) =
        some (host.sha256 (stringify
          (.obj (newCore runId freshId now events (note (.str eventId)) payloadHash)))) := by
    intro payloadHash
    unfold Host.hashJson canonicalJson canonicalValue
    rw [hcanonical]
    rfl
  unfold newEvent
  simp only [hhash]
  exact ⟨_, rfl⟩

theorem sample_created : ∃ event,
    newEvent sampleHost sampleRunId (js "e1") sampleTime []
        (creationInput sampleTime sampleContractHash) = some event ∧
      Created sampleHost sampleRunId sampleContractHash ⟨lineOf event, [], [event], [event]⟩ := by
  have hsome : (newEvent sampleHost sampleRunId (js "e1") sampleTime []
      (creationInput sampleTime sampleContractHash)).isSome = true := by
    decide
  have hdate : sampleHost.dateParses sampleTime = true := decide_eq_true (Eq.refl sampleTime)
  obtain ⟨event, hevent⟩ := isSome_iff_exists.mp hsome
  exact ⟨event, hevent, js "e1", sampleTime, event, by decide, by decide, hdate, hevent, rfl⟩

/-- An operation is submitted and served. -/
noncomputable def served (cut : Option ℕ) (op : Op) (s : Store) : Store :=
  serve sampleHost sampleRunId (js "e3") sampleTime cut op { s with queue := s.queue ++ [op] }

theorem served_queue {s : Store} (hqueue : s.queue = []) (cut : Option ℕ) (op : Op) :
    (served cut op s).queue = [] := by
  unfold served serve
  rw [hqueue]
  split <;> rfl

theorem served_run {s : Store} (hqueue : s.queue = []) (cut : Option ℕ) (op : Op)
    {guard : Store → Action → Prop} (hsubmit : guard s (.submit op))
    (hserve : guard { s with queue := s.queue ++ [op] } (.serve (js "e3") sampleTime cut)) :
    Run.Guarded (Step sampleHost sampleRunId) guard s (served cut op s) := by
  have hdate : sampleHost.dateParses sampleTime = true := decide_eq_true (Eq.refl sampleTime)
  have hhead : s.queue ++ [op] = op :: [] := by
    rw [hqueue]
    rfl
  exact ((Run.Guarded.refl s).snoc (.submit s _) hsubmit).snoc
    (.serve _ cut hhead (by decide) hdate) hserve

/-- The only operation is sound. -/
theorem served_sound {s : Store} (hqueue : s.queue = []) (op : Op)
    (h : ∀ events, OpSound sampleHost events op) (freshId now : JsString) (cut : Option ℕ) :
    Sound sampleHost sampleRunId { s with queue := s.queue ++ [op] } (.serve freshId now cut) := by
  intro op' rest events hop _
  rw [hqueue] at hop
  obtain ⟨rfl, -⟩ := cons.inj hop
  exact h events

/-- The ledger loses and invents nothing as long as every input can be read back. -/
theorem ledger_keeps (hcreated : Created host runId contractHash s)
    (hrun : Run.Guarded (Step host runId) (Sound host runId) s t) :
    ∃ events, Keeps host runId contractHash t events := by
  have hholds : ∃ events tail, Holds host runId contractHash t events tail := by
    refine hrun.invariant (I := fun s => ∃ events tail, Holds host runId contractHash s events tail)
      (fun s a t hs hstep hsound => ?_) ?_
    · obtain ⟨events, tail, hs⟩ := hs
      exact hs.step hstep hsound
    · obtain ⟨freshId, createdAt, event, hcontract, hid, hdate, hnew, rfl⟩ := hcreated
      obtain ⟨stored, -, hholds⟩ := creation_holds hcontract hid hdate hnew
      exact ⟨_, _, hholds⟩
  obtain ⟨events, tail, h⟩ := hholds
  exact ⟨events, h.keeps⟩

/-- A note whose write is cut, and then a transition. -/
theorem ledger_keeps_transition : ∃ s, Created sampleHost sampleRunId sampleContractHash s ∧
    ∃ events, Keeps sampleHost sampleRunId sampleContractHash
      (served none (.transition (js "BASELINE_CAPTURING") {})
        (served (some 7) (.append (note (.str (js "e2")))) s)) events := by
  obtain ⟨event, -, hcreated⟩ := sample_created
  have hnote : ∀ events, OpSound sampleHost events (.append (note (.str (js "e2")))) := by
    intro events
    have hid : toText (.str (js "e2")) ≠ [] := by decide
    have htype : ¬ isStr "STATE_TRANSITION" (.str (js "NOTE")) = true := by decide
    exact ⟨hid, .inl rfl, fun h => absurd h htype, trivial, trivial, trivial⟩
  have hcut := served_run rfl (some 7) _ trivial
    (served_sound (s := ⟨lineOf event, [], [event], [event]⟩) rfl _ hnote _ _ _)
  have hqueue := served_queue (s := ⟨lineOf event, [], [event], [event]⟩) rfl (some 7)
    (.append (note (.str (js "e2"))))
  refine ⟨_, hcreated, ledger_keeps hcreated (hcut.trans (served_run hqueue none _ trivial ?_))⟩
  exact served_sound hqueue (.transition (js "BASELINE_CAPTURING") {})
    (fun _ => ⟨trivial, trivial, trivial⟩) _ _ _

/-- An event with an empty identifier is acknowledged and makes the ledger unreadable. -/
theorem ledger_unreadable : ∃ s, Created sampleHost sampleRunId sampleContractHash s ∧
    Run.Free (Step sampleHost sampleRunId) s (served none (.append (note (.str []))) s) ∧
      (served none (.append (note (.str []))) s).acknowledged.length = 2 ∧
        readEvents sampleHost sampleRunId true (served none (.append (note (.str []))) s).file =
          none := by
  obtain ⟨event, hnew, hcreated⟩ := sample_created
  refine ⟨_, hcreated, served_run rfl none _ trivial trivial, ?_⟩
  have hdate : sampleHost.dateParses sampleTime = true := decide_eq_true (Eq.refl sampleTime)
  obtain ⟨first, -, hholds⟩ := creation_holds (by decide) (by decide) hdate hnew
  have hlast : IsHash (lastHash [first]) := by
    rw [hholds.chained.lastHash_eq]
    exact hholds.chained.isHash zeroHash_isHash
  obtain ⟨second, hsecond⟩ := note_accepted hlast (js "e3") sampleTime []
  obtain ⟨text, hash, hspec⟩ := newEvent_spec hsecond
  obtain ⟨stored, hstored⟩ := hspec.stored hlast
  have hevent : eventOf sampleHost sampleRunId (js "e3") sampleTime (.append (note (.str [])))
      (lineOf event) = some second := by
    unfold eventOf Op.recoverTail
    rw [hholds.read]
    exact hsecond
  have hfile : fileAfterRead true (lineOf event) ++ lineOf second =
      fileOf ([first] ++ [stored]) := by
    have hline : lineOf event = fileOf [first] ++ [] := hholds.file
    have hrecovered : fileAfterRead true (lineOf event) = fileOf [first] := by
      unfold fileAfterRead
      rw [if_pos rfl, hline, recovered_append hholds.tail (fileOf_last _)]
    rw [hrecovered, fileOf_append, fileOf_singleton (canonicalValue_inOrder hstored.canonical),
      hstored.line]
  have hbroken : validEvent sampleHost sampleRunId ([first].length + 1) (lastHash [first]) stored =
      false := by
    rw [hstored.valid]
    rfl
  unfold served serve
  simp only [Op.recoverTail]
  rw [hevent]
  refine ⟨rfl, ?_⟩
  simp only
  rw [hfile]
  exact readEvents_broken hholds.chained (canonicalValue_inOrder hstored.canonical) hbroken

end Ds4Studio.EvolutionLedger
