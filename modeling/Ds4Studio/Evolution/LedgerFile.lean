import Ds4Studio.Evolution.LedgerEvents

/-!
Ledgers as they are read. The lines of a chain of events are read back as these events, whatever
part of a line stands behind them, and the state of the run is where their transitions lead.
-/

namespace Ds4Studio.EvolutionLedger

open Bytes Json List
open Evolution (RunState assertTransition)

/-! ### The file -/

theorem newline_not_mem (v : Value) : newline ∉ stringify v := by
  intro hmem
  exact absurd (stringify_printed v _ hmem) (by decide)

theorem stringify_ne_nil (v : Value) : stringify v ≠ [] := by
  obtain ⟨c, rest, h, -⟩ := stringify_head v
  rw [h]
  exact cons_ne_nil c rest

theorem lines_append {line : Bytes} (h : newline ∉ line) (rest : Bytes) :
    lines (line ++ newline :: rest) = line :: lines rest := by
  induction line with
  | nil =>
    rw [nil_append, lines, if_pos rfl]
  | cons b line ih =>
    obtain ⟨hb, hline⟩ := not_or.mp (mt mem_cons.mpr h)
    rw [cons_append, lines, if_neg (Ne.symm hb), ih hline]

theorem dropWhile_all {p : UInt8 → Bool} {xs ys : Bytes} (h : ∀ x ∈ xs, p x = true) :
    (xs ++ ys).dropWhile p = ys.dropWhile p := by
  induction xs with
  | nil => rfl
  | cons x xs ih =>
    rw [cons_append, dropWhile_cons_of_pos (h x mem_cons_self)]
    exact ih fun y hy => h y (mem_cons_of_mem x hy)

theorem recovered_append {tail : Bytes} (h : newline ∉ tail) {whole : Bytes}
    (hwhole : whole = [] ∨ whole.getLast? = some newline) : recovered (whole ++ tail) = whole := by
  have htail : ∀ b ∈ tail.reverse, decide (b ≠ newline) = true := by
    intro b hb
    exact decide_eq_true fun heq => h (heq ▸ mem_reverse.mp hb)
  unfold recovered
  rw [reverse_append, dropWhile_all htail]
  rcases hwhole with rfl | hlast
  · rfl
  · obtain ⟨front, rfl⟩ := getLast?_eq_some_iff.mp hlast
    simp

def fileOf (events : List Value) : Bytes := events.flatMap lineOf

variable {event : Value}

theorem lineOf_inOrder (h : InOrder event) : lineOf event = stringify event ++ [newline] := by
  unfold lineOf canonicalJson
  rw [h.canonical]
  rfl

theorem fileOf_last (events : List Value) :
    fileOf events = [] ∨ (fileOf events).getLast? = some newline := by
  rcases eq_nil_or_concat' events with rfl | ⟨front, last, rfl⟩
  · exact .inl rfl
  · right
    unfold fileOf lineOf
    rw [flatMap_append, flatMap_singleton, ← append_assoc, getLast?_concat]

variable {events : List Value}

theorem lines_fileOf (h : ∀ e ∈ events, InOrder e) :
    lines (fileOf events) = events.map stringify := by
  induction events with
  | nil => rfl
  | cons e rest ih =>
    unfold fileOf
    rw [flatMap_cons, lineOf_inOrder (h e mem_cons_self), append_assoc,
      singleton_append, lines_append (newline_not_mem e)]
    congr 1
    exact ih fun f hf => h f (mem_cons_of_mem e hf)

/-! ### Chains -/

/-- The events are numbered from a number on, and each carries the hash of the one before it. -/
def Chained (host : Host) (runId : JsString) : ℕ → Value → List Value → Prop
  | _, _, [] => True
  | sequence, previous, event :: rest =>
      InOrder event ∧ validEvent host runId sequence previous event = true ∧
        Chained host runId (sequence + 1) (get "eventHash" event) rest

def hashBehind (previous : Value) (events : List Value) : Value :=
  events.foldl (fun _ event => get "eventHash" event) previous

def IsHash (v : Value) : Prop := ∃ s, v = .str s ∧ hex64 s = true

variable {host : Host} {runId : JsString}

theorem zeroHash_isHash : IsHash zeroHash := ⟨_, rfl, by decide⟩

variable {previous : Value} {sequence : ℕ}

theorem validEvent_hash (h : validEvent host runId sequence previous event = true) :
    IsHash (get "eventHash" event) := by
  unfold validEvent at h
  split at h
  case h_1 =>
    obtain ⟨-, hhash⟩ := Bool.and_eq_true_iff.mp h
    obtain ⟨hash, -, hequal⟩ := (Option.any_eq_true _ _).mp hhash
    unfold hexEqual at hequal
    split at hequal
    case h_1 s t _ ht =>
      simp only [Bool.and_eq_true] at hequal
      exact ⟨t, ht, hequal.1.2⟩
    case h_2 => cases hequal
  case h_2 => cases h

section

variable (h : Chained host runId sequence previous events)

include h

theorem Chained.inOrder : ∀ e ∈ events, InOrder e := by
  induction events generalizing sequence previous with
  | nil => nofun
  | cons e rest ih =>
    obtain ⟨he, -, hrest⟩ := h
    intro f hf
    rcases mem_cons.mp hf with rfl | hf
    · exact he
    · exact ih hrest f hf

theorem Chained.isHash (hprevious : IsHash previous) : IsHash (hashBehind previous events) := by
  induction events generalizing sequence previous with
  | nil => exact hprevious
  | cons e rest ih =>
    obtain ⟨-, hvalid, hrest⟩ := h
    exact ih hrest (validEvent_hash hvalid)

theorem Chained.concat (horder : InOrder event)
    (hvalid : validEvent host runId (sequence + events.length) (hashBehind previous events) event =
      true) : Chained host runId sequence previous (events ++ [event]) := by
  induction events generalizing sequence previous with
  | nil => exact ⟨horder, hvalid, trivial⟩
  | cons e rest ih =>
    obtain ⟨he, hvalid', hrest⟩ := h
    refine ⟨he, hvalid', ih hrest ?_⟩
    rwa [show sequence + 1 + rest.length = sequence + (rest.length + 1) by omega]

end

theorem Chained.lastHash_eq (h : Chained host runId 1 zeroHash events) :
    lastHash events = hashBehind zeroHash events := by
  obtain ⟨s, hs, -⟩ := h.isHash zeroHash_isHash
  rcases eq_nil_or_concat' events with rfl | ⟨front, last, rfl⟩
  · rfl
  · unfold hashBehind at hs ⊢
    unfold lastHash
    rw [foldl_append, foldl_cons, foldl_nil] at hs ⊢
    rw [getLast?_concat]
    simp only
    rw [hs]
    rfl

theorem readLines_append (h : Chained host runId sequence previous events) (more : List Bytes) :
    readLines host runId sequence previous (events.map stringify ++ more) =
      (readLines host runId (sequence + events.length) (hashBehind previous events) more).map
        (events ++ ·) := by
  induction events generalizing sequence previous with
  | nil =>
    cases readLines host runId sequence previous more with
    | none => simp [hashBehind]
    | some es => simp [hashBehind]
  | cons e rest ih =>
    obtain ⟨he, hvalid, hrest⟩ := h
    rw [map_cons, cons_append, readLines, if_neg (stringify_ne_nil e),
      host.jsonParse_stringify e he]
    simp only
    rw [if_pos hvalid, ih hrest, Option.map_map,
      show sequence + 1 + rest.length = sequence + (rest.length + 1) by omega]
    rfl

theorem readLines_chained (h : Chained host runId sequence previous events) :
    readLines host runId sequence previous (events.map stringify) = some events := by
  have hread := readLines_append h []
  rw [readLines] at hread
  simpa using hread

/-- One event that the reader does not accept makes the ledger unreadable. -/
theorem readEvents_broken (h : Chained host runId 1 zeroHash events) {stored : Value}
    (horder : InOrder stored)
    (hbroken : validEvent host runId (events.length + 1) (lastHash events) stored = false) :
    readEvents host runId true (fileOf (events ++ [stored])) = none := by
  have hall : ∀ e ∈ events ++ [stored], InOrder e := by
    intro e he
    rcases mem_append.mp he with he | he
    · exact h.inOrder e he
    · exact mem_singleton.mp he ▸ horder
  have hfile : recovered (fileOf (events ++ [stored])) = fileOf (events ++ [stored]) := by
    have hrec := recovered_append (not_mem_nil) (fileOf_last (events ++ [stored]))
    rwa [append_nil] at hrec
  unfold readEvents
  rw [if_neg (by simp), hfile, lines_fileOf hall, map_append, readLines_append h,
    map_singleton, readLines, if_neg (stringify_ne_nil stored),
    host.jsonParse_stringify stored horder]
  simp only
  rw [← h.lastHash_eq, Nat.add_comm, hbroken]
  rfl

theorem readEvents_chained (h : Chained host runId 1 zeroHash events) {tail : Bytes}
    (htail : newline ∉ tail) :
    readEvents host runId true (fileOf events ++ tail) = some events := by
  unfold readEvents
  rw [if_neg (by simp), recovered_append htail (fileOf_last events), lines_fileOf h.inOrder,
    readLines_chained h]

/-! ### Transitions -/

/-- A run may go from one state to the other. -/
def Allowed (source target : RunState) : Prop :=
  source.terminal = false ∧ (target ∈ source.allowed ∨ target.exceptionalKind.isSome = true)

/-- The states that the transitions among the events lead to. -/
def targets (events : List Value) : List RunState :=
  events.filterMap fun event =>
    if isTransition event then
      (strOf (get "to" (get "payload" event))).bind RunState.ofName
    else none

theorem assertTransition_allowed {source target : RunState} {kind : Option JsString}
    {reason : JsString} (h : assertTransition source target kind reason = true) :
    Allowed source target := by
  obtain ⟨hterminal, h⟩ := Bool.and_eq_true_iff.mp h
  refine ⟨by simpa using hterminal, ?_⟩
  rcases Bool.or_eq_true_iff.mp h with hallowed | hkind
  · exact .inl (by simpa using hallowed)
  · right
    split at hkind
    case h_1 => cases hkind
    case h_2 required hrequired =>
      rw [hrequired]
      rfl

theorem transitionTarget_spec {source target : RunState} {payload : Value}
    (h : transitionTarget source payload = some target) :
    Allowed source target ∧ (strOf (get "to" payload)).bind RunState.ofName = some target := by
  unfold transitionTarget at h
  split at h
  case isTrue =>
    split at h
    case h_1 => cases h
    case h_2 found hfound =>
      split at h
      case isTrue hassert =>
        cases h
        exact ⟨assertTransition_allowed hassert, hfound⟩
      case isFalse => cases h
  case isFalse => cases h

theorem replay_spec {run run' : RunState × ℕ} (h : replay run events = some run') :
    List.IsChain Allowed (run.1 :: targets events) ∧
      (run.1 :: targets events).getLast? = some run'.1 ∧
      run'.2 = (events.map revisionOf).foldl max run.2 := by
  induction events generalizing run with
  | nil =>
    cases h
    exact ⟨List.IsChain.singleton _, rfl, rfl⟩
  | cons event rest ih =>
    unfold replay at h
    split at h
    case isTrue htransition =>
      split at h
      case h_1 => cases h
      case h_2 target htarget =>
        obtain ⟨hallowed, hto⟩ := transitionTarget_spec htarget
        obtain ⟨hchain, hlast, hrevision⟩ := ih h
        have htargets : targets (event :: rest) = target :: targets rest := by
          unfold targets
          rw [filterMap_cons_some]
          rw [if_pos htransition, hto]
        rw [htargets]
        refine ⟨isChain_cons_cons.mpr ⟨hallowed, hchain⟩, ?_, hrevision⟩
        exact hlast
    case isFalse htransition =>
      have htargets : targets (event :: rest) = targets rest := by
        unfold targets
        rw [filterMap_cons_none]
        rw [if_neg htransition]
      rw [htargets]
      exact ih h

theorem replay_append (run : RunState × ℕ) (events more : List Value) :
    replay run (events ++ more) = (replay run events).bind fun run => replay run more := by
  induction events generalizing run with
  | nil => rfl
  | cons event rest ih =>
    rw [cons_append, replay, replay]
    split
    case isTrue =>
      split
      case h_1 => rfl
      case h_2 => exact ih _
    case isFalse => exact ih _

theorem reconstruct_append {run : RunState × ℕ} (h : reconstruct events = some run) (event : Value)
    (hevent : isTransition event = true →
      (transitionTarget run.1 (get "payload" event)).isSome = true) :
    ∃ run', reconstruct (events ++ [event]) = some run' := by
  cases events with
  | nil => cases h
  | cons first rest =>
    rw [reconstruct] at h
    split at h
    case isTrue hfirst =>
      rw [cons_append, reconstruct, if_pos hfirst, replay_append, h, Option.bind_some]
      unfold replay
      split
      case isTrue htransition =>
        obtain ⟨target, htarget⟩ := Option.isSome_iff_exists.mp (hevent htransition)
        rw [htarget]
        exact ⟨_, rfl⟩
      case isFalse => exact ⟨_, rfl⟩
    case isFalse => cases h

theorem reconstruct_spec {run : RunState × ℕ} (h : reconstruct events = some run) :
    List.IsChain Allowed (RunState.created :: targets events) ∧
      (RunState.created :: targets events).getLast? = some run.1 ∧
      run.2 = (events.tail.map revisionOf).foldl max 0 := by
  cases events with
  | nil => cases h
  | cons first rest =>
    rw [reconstruct] at h
    split at h
    case isTrue hfirst =>
      have hcreated : ¬ isTransition first = true := by
        have htype := of_decide_eq_true hfirst.1
        unfold isTransition isStr
        rw [htype]
        simp
      have htargets : targets (first :: rest) = targets rest := by
        unfold targets
        rw [filterMap_cons_none]
        rw [if_neg hcreated]
      rw [htargets]
      exact replay_spec h
    case isFalse => cases h

theorem assertTransition_ordinary (source target : RunState) (reason : JsString) :
    assertTransition source target (some (js "ordinary")) reason =
      assertTransition source target none reason := by
  unfold assertTransition
  cases target <;> simp [RunState.exceptionalKind]

theorem transitionTarget_payload {state target : RunState} {options : TransitionOptions}
    (h : assertTransition state target (strOf options.kind)
      (toText (orElse (.str []) options.reasonCode)) = true) :
    transitionTarget state (transitionPayload state target options) = some target := by
  have hkind : assertTransition state target
      (strOf (orElse (.str (js "ordinary")) options.kind))
      (toText (orElse (.str []) options.reasonCode)) = true := by
    rw [← h]
    cases options.kind
    case undefined => exact assertTransition_ordinary state target _
    case null => exact assertTransition_ordinary state target _
    all_goals rfl
  have hreason : toText (orElse (.str []) (orElse .null options.reasonCode)) =
      toText (orElse (.str []) options.reasonCode) := by
    cases options.reasonCode <;> rfl
  have hfrom : isStr state.name (.str (js state.name)) = true := decide_eq_true rfl
  have hto : strOf (.str (js target.name)) = some (js target.name) := rfl
  unfold transitionTarget transitionPayload
  simp only [get_cons, js_inj, String.reduceEq, if_true, if_false, hfrom, hto, Option.bind_some,
    RunState.ofName_name, hreason]
  rw [if_pos hkind]

/-! ### Values that are kept -/

theorem keptMembers_of (names : List String) {ms : List (JsString × Value)}
    (hnames : ms.map Prod.fst = names.map js)
    (hordered : (names.map js).Pairwise fun a b => propertyKey a < propertyKey b)
    (hproto : "__proto__" ∉ names) (hkept : ∀ m ∈ ms, Kept m.2) : KeptMembers ms := by
  induction names generalizing ms with
  | nil =>
    rw [map_eq_nil_iff.mp hnames]
    trivial
  | cons name rest ih =>
    obtain ⟨m, ms, rfl, hname, hrest⟩ := map_eq_cons_iff.mp hnames
    obtain ⟨hlt, hordered⟩ := pairwise_cons.mp hordered
    obtain ⟨hne, hproto⟩ := not_or.mp (mt mem_cons.mpr hproto)
    refine ⟨?_, fun n hn => ?_, hkept m mem_cons_self,
      ih hrest hordered hproto fun n hn => hkept n (mem_cons_of_mem m hn)⟩
    · rw [hname]
      exact fun heq => hne (js_inj.mp heq).symm
    · rw [hname]
      refine (hlt n.1 ?_).ne'
      rw [← hrest]
      exact mem_map_of_mem hn

theorem kept_orElse {fallback v : Value} (hfallback : Kept fallback) (h : Kept v) :
    Kept (orElse fallback v) := by
  cases v
  case undefined => exact hfallback
  case null => exact hfallback
  all_goals exact h

theorem kept_transitionPayload (state target : RunState) {options : TransitionOptions}
    (h : Kept options.kind ∧ Kept options.reasonCode ∧ Kept options.details) :
    Kept (transitionPayload state target options) := by
  refine keptMembers_of ["details", "from", "kind", "reasonCode", "to"] rfl
    (by decide) (by decide) ?_
  obtain ⟨hkind, hreason, hdetails⟩ := h
  simp only [forall_mem_cons]
  exact ⟨kept_orElse trivial hdetails, trivial, kept_orElse trivial hkind,
    kept_orElse trivial hreason, trivial, nofun⟩

theorem kept_event {freshId now hash payloadHash : JsString} {input : Input}
    (hlast : IsHash (lastHash events)) (hrevision : Kept (orElse (natural 0) input.revision))
    (hkept : Kept input.type ∧ Kept input.timestamp ∧ Kept input.payload) :
    Kept (.obj ((js "eventHash", .str hash) ::
      newCore runId freshId now events input payloadHash)) := by
  obtain ⟨last, hlast, -⟩ := hlast
  obtain ⟨htype, htimestamp, hpayload⟩ := hkept
  refine keptMembers_of eventKeys rfl eventKeys_ordered (by decide) ?_
  unfold newCore
  rw [hlast]
  simp only [forall_mem_cons]
  exact ⟨trivial, trivial, trivial, kept_orElse trivial hpayload, trivial, trivial, hrevision,
    trivial, trivial, kept_orElse trivial htimestamp, htype, nofun⟩

end Ds4Studio.EvolutionLedger
