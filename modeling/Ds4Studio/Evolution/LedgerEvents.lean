import Ds4Studio.Evolution.Ledger

/-!
What is stored of an event. A line holds the canonical form of the event that was appended, and
the checks of the reader accept it.
-/

namespace Ds4Studio.EvolutionLedger

open Bytes Json List Option
open Evolution (RunState assertTransition)

/-! ### Canonical values read like what they were made of -/

/-- The value is missing in both, or the second one is the canonical form of the first. -/
def Stored (v w : Value) : Prop := (v = .undefined ∧ w = .undefined) ∨ canonicalValue v = some w

variable {v w : Value}

theorem Stored.strOf (h : Stored v w) : strOf w = strOf v := by
  rcases h with ⟨rfl, rfl⟩ | h
  · rfl
  · cases v with
    | undefined => cases h
    | arr elements =>
      obtain ⟨vs, -, rfl⟩ := map_eq_some_iff.mp h
      rfl
    | obj members =>
      obtain ⟨ms, -, rfl⟩ := map_eq_some_iff.mp h
      rfl
    | null | bool _ | num _ | str _ =>
      cases h
      rfl

theorem Stored.isStr (h : Stored v w) (s : String) : isStr s w = isStr s v := by
  unfold EvolutionLedger.isStr
  rw [h.strOf]

mutual

theorem toText_canonical : ∀ {v w : Value}, canonicalValue v = some w → toText w = toText v
  | .null, _, h | .bool _, _, h | .num _, _, h | .str _, _, h => by
    cases h
    rfl
  | .arr elements, _, h => by
    obtain ⟨vs, hvs, rfl⟩ := map_eq_some_iff.mp h
    unfold toText
    exact joinText_canonical hvs
  | .obj members, _, h => by
    obtain ⟨ms, -, rfl⟩ := map_eq_some_iff.mp h
    rfl

theorem joinText_canonical : ∀ {vs ws : List Value}, canonicalElements vs = some ws →
    joinText ws = joinText vs
  | [], _, h => by
    cases h
    rfl
  | v :: rest, _, h => by
    unfold canonicalElements at h
    split at h
    case h_1 w ws hw hws =>
      cases h
      have hjoin := joinText_canonical hws
      have helement := elementText_canonical hw
      cases rest with
      | nil =>
        cases hws
        unfold joinText
        exact helement
      | cons v' rest =>
        cases ws with
        | nil =>
          unfold canonicalElements at hws
          split at hws <;> cases hws
        | cons w' ws =>
          unfold joinText
          rw [helement, hjoin]
    case h_2 => cases h

theorem elementText_canonical : ∀ {v w : Value}, canonicalValue v = some w →
    elementText w = elementText v
  | .null, _, h | .bool _, _, h | .num _, _, h | .str _, _, h => by
    cases h
    rfl
  | .arr elements, _, h => by
    obtain ⟨vs, hvs, rfl⟩ := map_eq_some_iff.mp h
    unfold elementText
    exact joinText_canonical hvs
  | .obj members, _, h => by
    obtain ⟨ms, -, rfl⟩ := map_eq_some_iff.mp h
    rfl

end

theorem Stored.orElse (h : Stored v w) {fallback : Value}
    (hfallback : canonicalValue fallback = some fallback) :
    canonicalValue (orElse fallback v) = some (orElse fallback w) := by
  rcases h with ⟨rfl, rfl⟩ | h
  · exact hfallback
  · cases v with
    | undefined => cases h
    | null =>
      cases h
      exact hfallback
    | arr elements =>
      obtain ⟨vs, -, rfl⟩ := map_eq_some_iff.mp h
      exact h
    | obj members =>
      obtain ⟨ms, -, rfl⟩ := map_eq_some_iff.mp h
      exact h
    | bool _ | num _ | str _ =>
      cases h
      rfl

variable {ms : List (JsString × Value)} {v : Value}

theorem find_assign {key : JsString} (h : ∀ m ∈ ms, propertyKey m.1 ≠ propertyKey key)
    (k : JsString) :
    (assign key v ms).find? (fun m => m.1 = k) =
      if key = k then some (key, v) else ms.find? fun m => m.1 = k := by
  induction ms with
  | nil => by_cases hk : key = k <;> simp [assign, hk]
  | cons n rest ih =>
    have hrest := ih fun m hm => h m (mem_cons_of_mem n hm)
    have hn : n.1 ≠ key := fun heq => h n mem_cons_self (congrArg propertyKey heq)
    unfold assign
    split
    case isTrue => by_cases hk : key = k <;> simp [hk]
    case isFalse hnot =>
      split
      case isTrue =>
        rw [find?_cons, hrest]
        by_cases hnk : n.1 = k
        · have hk : ¬ key = k := fun heq => hn (hnk.trans heq.symm)
          simp [hnk, hk]
        · simp [hnk]
      case isFalse hnot' =>
        exact absurd (le_antisymm (not_lt.mp hnot) (not_lt.mp hnot')) (h n mem_cons_self)

variable {ks : List (JsString × Value)}

theorem canonicalMembers_names (hkept : KeptMembers ms) (h : canonicalMembers ms = some ks) :
    (ks.map Prod.fst).Perm (ms.map Prod.fst) := by
  obtain ⟨ns, hnames, -, hperm⟩ := keptMembers_alike hkept h
  rw [hnames]
  exact (hperm.map Prod.fst).symm

theorem canonicalMembers_find (hkept : KeptMembers ms) (h : canonicalMembers ms = some ks)
    (k : JsString) :
    Stored (((ms.find? fun m => m.1 = k).map Prod.snd).getD .undefined)
      (((ks.find? fun m => m.1 = k).map Prod.snd).getD .undefined) := by
  induction ms generalizing ks with
  | nil =>
    cases h
    exact .inl ⟨rfl, rfl⟩
  | cons m rest ih =>
    obtain ⟨hkey, hdistinct, -, hrest⟩ := hkept
    unfold canonicalMembers at h
    split at h
    case h_1 w ns hw hns =>
      cases h
      have hnew : ∀ n ∈ ns, propertyKey n.1 ≠ propertyKey m.1 := by
        intro n hn
        have hmem := (canonicalMembers_names hrest hns).mem_iff.mp (mem_map_of_mem hn)
        obtain ⟨r, hr, heq⟩ := mem_map.mp hmem
        exact heq ▸ hdistinct r hr
      rw [if_neg hkey, find_assign hnew]
      by_cases hk : m.1 = k
      · simpa [hk] using .inr hw
      · simpa [hk] using ih hrest hns
    case h_2 => cases h

theorem Stored.get (h : Stored v w) (hkept : Kept v) (name : String) :
    Stored (get name v) (get name w) := by
  rcases h with ⟨rfl, rfl⟩ | h
  · exact .inl ⟨rfl, rfl⟩
  · cases v with
    | undefined => cases h
    | obj members =>
      obtain ⟨ms, hms, rfl⟩ := map_eq_some_iff.mp h
      exact canonicalMembers_find hkept hms (js name)
    | arr elements =>
      obtain ⟨vs, -, rfl⟩ := map_eq_some_iff.mp h
      exact .inl ⟨rfl, rfl⟩
    | null | bool _ | num _ | str _ =>
      cases h
      exact .inl ⟨rfl, rfl⟩

theorem canonical_canonical (h : canonicalValue v = some w) : canonicalValue w = some w :=
  (canonicalValue_inOrder h).canonical

theorem transitionTarget_stored (h : Stored v w) (hkept : Kept v) (state : RunState) :
    transitionTarget state w = transitionTarget state v := by
  have hreason : toText (orElse (.str []) (get "reasonCode" w)) =
      toText (orElse (.str []) (get "reasonCode" v)) :=
    toText_canonical ((h.get hkept "reasonCode").orElse rfl)
  unfold transitionTarget
  rw [(h.get hkept "from").isStr, (h.get hkept "to").strOf, (h.get hkept "kind").strOf, hreason]

/-! ### Objects with given names -/

theorem get_cons (name : String) (m : JsString × Value) (ms : List (JsString × Value)) :
    get name (.obj (m :: ms)) = if m.1 = js name then m.2 else get name (.obj ms) := by
  simp only [get, find?_cons]
  by_cases h : m.1 = js name <;> simp [h]

theorem canonical_get {ns : List (JsString × Value)}
    (h : List.Forall₂ (fun m n => m.1 = n.1 ∧ canonicalValue m.2 = some n.2) ms ns)
    {name : String} (hname : js name ∈ ms.map Prod.fst) :
    canonicalValue (get name (.obj ms)) = some (get name (.obj ns)) := by
  induction h with
  | nil => cases hname
  | cons hhead _ ih =>
    rw [get_cons, get_cons, hhead.1]
    split
    case isTrue => exact hhead.2
    case isFalse hne =>
      rcases mem_cons.mp hname with heq | hname
      · exact absurd (hhead.1 ▸ heq.symm) hne
      · exact ih hname

theorem eq_map_get {names : List String} (hnodup : names.Nodup)
    (h : ks.map Prod.fst = names.map js) :
    ks = names.map fun name => (js name, get name (.obj ks)) := by
  induction names generalizing ks with
  | nil => exact map_eq_nil_iff.mp h
  | cons name rest ih =>
    obtain ⟨m, ks, rfl, hname, hks⟩ := map_eq_cons_iff.mp h
    obtain ⟨hnew, hnodup⟩ := nodup_cons.mp hnodup
    rw [map_cons, get_cons, if_pos hname, ← hname]
    congr 1
    conv_lhs => rw [ih hnodup hks]
    refine map_congr_left fun other hother => ?_
    have hne : ¬ m.1 = js other := by
      rw [hname, js_inj]
      exact fun heq => hnew (heq ▸ hother)
    rw [get_cons, if_neg hne]

theorem ordered_iff :
    Ordered ms ↔ (ms.map Prod.fst).Pairwise fun a b => propertyKey a < propertyKey b := by
  unfold Ordered
  rw [pairwise_map]

theorem eventKeys_ordered :
    (eventKeys.map js).Pairwise fun a b => propertyKey a < propertyKey b := by
  decide

theorem eventKeys_proto {name : String} (h : name ∈ eventKeys) : js name ≠ proto := by
  have hall : ∀ name ∈ eventKeys, name ≠ "__proto__" := by decide
  exact fun heq => hall name h (js_inj.mp heq)

/-- Members with the names of an event are canonical if their values are. -/
theorem canonicalEvent {names : List String} (hnames : names.Sublist eventKeys)
    {ns : List (JsString × Value)} (hms : ms.map Prod.fst = names.map js) :
    canonicalMembers ms = some ns ↔
      List.Forall₂ (fun m n => m.1 = n.1 ∧ canonicalValue m.2 = some n.2) ms ns := by
  refine canonicalMembers_eq_some_iff ?_ fun m hm => ?_
  · rw [ordered_iff, hms]
    exact eventKeys_ordered.sublist (hnames.map js)
  · have hmem : m.1 ∈ names.map js := by
      rw [← hms]
      exact mem_map_of_mem hm
    obtain ⟨name, hname, heq⟩ := mem_map.mp hmem
    exact heq ▸ eventKeys_proto (hnames.subset hname)

/-! ### The event of an append -/

variable {host : Host} {runId freshId now : JsString} {events : List Value} {input : Input}
  {event : Value}

/-- What an append has computed when it writes. -/
structure NewEvent (host : Host) (runId freshId now : JsString) (events : List Value)
    (input : Input) (event : Value) (text : Bytes) (hash : JsString) : Prop where
  revision : (toNatural (orElse (natural 0) input.revision)).isSome = true
  type : eventTypePattern (toText input.type) = true
  payload : canonicalJson (orElse (.obj []) input.payload) = some text
  hashed : host.hashJson (.obj (newCore runId freshId now events input (host.sha256 text))) =
    some hash
  event : event = .obj ((js "eventHash", .str hash) ::
    newCore runId freshId now events input (host.sha256 text))

theorem newEvent_spec (h : newEvent host runId freshId now events input = some event) :
    ∃ text hash, NewEvent host runId freshId now events input event text hash := by
  unfold newEvent at h
  simp only at h
  split at h
  case isTrue => cases h
  case isFalse =>
    split at h
    case isTrue => cases h
    case isFalse hrevision =>
      split at h
      case isTrue => cases h
      case isFalse htype =>
        split at h
        case h_1 => cases h
        case h_2 text htext =>
          split at h
          case isTrue => cases h
          case isFalse =>
            obtain ⟨hash, hhash, rfl⟩ := map_eq_some_iff.mp h
            refine ⟨text, hash, ?_, ?_, htext, hhash, rfl⟩
            · cases hnat : toNatural (orElse (natural 0) input.revision) with
              | none => simp [hnat] at hrevision
              | some n => rfl
            · rw [Bool.not_eq_true] at htype
              cases hinput : input.type with
              | undefined | null => simp [hinput, orElse, toText, eventTypePattern] at htype
              | _ => simpa [hinput, orElse] using htype

theorem newCore_names (events : List Value) (input : Input) (payloadHash : JsString) :
    (newCore runId freshId now events input payloadHash).map Prod.fst = coreNames.map js :=
  rfl

theorem hashJson_some {host : Host} {hash : JsString} (h : host.hashJson v = some hash) :
    ∃ w, canonicalValue v = some w ∧ hash = host.sha256 (stringify w) := by
  obtain ⟨text, htext, rfl⟩ := map_eq_some_iff.mp h
  obtain ⟨w, hw, rfl⟩ := map_eq_some_iff.mp htext
  exact ⟨w, hw, rfl⟩

theorem hashJson_canonical (host : Host) (h : canonicalValue v = some w) :
    host.hashJson w = host.hashJson v := by
  unfold Host.hashJson canonicalJson
  rw [h, canonical_canonical h]

theorem hexEqual_self {s : JsString} (h : hex64 s = true) : hexEqual (.str s) (.str s) = true := by
  simp [hexEqual, h]

/-- What the reader finds in the line of an append. It looks at the identifier and the time, which
no append has looked at. -/
structure StoredEvent (host : Host) (runId freshId now : JsString) (events : List Value)
    (input : Input) (event stored : Value) : Prop where
  canonical : canonicalValue event = some stored
  valid : validEvent host runId (events.length + 1) (lastHash events) stored =
    (truthy (.str (toText (orElse (.str freshId) input.eventId))) &&
      host.dateParses (toText (orElse (.str now) input.timestamp)))
  type : canonicalValue input.type = some (get "type" stored)
  payload : canonicalValue (orElse (.obj []) input.payload) = some (get "payload" stored)

theorem Stored.str {s : JsString} {w : Value} (h : Stored (.str s) w) : w = .str s := by
  rcases h with ⟨h, -⟩ | h
  · cases h
  · exact (some.inj h).symm

theorem toNatural_num (h : (toNatural v).isSome = true) : ∃ n, v = .num n := by
  cases v with
  | num n => exact ⟨n, rfl⟩
  | undefined | null | bool _ | str _ | arr _ | obj _ => cases h

theorem NewEvent.stored {text : Bytes} {hash : JsString}
    (h : NewEvent host runId freshId now events input event text hash)
    (hlast : ∃ s, lastHash events = .str s ∧ hex64 s = true) :
    ∃ stored, StoredEvent host runId freshId now events input event stored := by
  obtain ⟨last, hlast, hhex⟩ := hlast
  obtain ⟨number, hnumber⟩ := toNatural_num h.revision
  obtain ⟨w, hw, hhash⟩ := hashJson_some h.hashed
  obtain ⟨ks, hks, rfl⟩ := map_eq_some_iff.mp hw
  have hcore := (canonicalEvent (sublist_cons_self _ _) (newCore_names _ _ _)).mp hks
  have hnames : ks.map Prod.fst = coreNames.map js := by
    rw [← names_eq (R := fun v w => canonicalValue v = some w) hcore]
    rfl
  have hevent : canonicalMembers ((js "eventHash", .str hash) ::
      newCore runId freshId now events input (host.sha256 text)) =
        some ((js "eventHash", .str hash) :: ks) :=
    (canonicalEvent (List.Sublist.refl _) rfl).mpr (.cons ⟨rfl, rfl⟩ hcore)
  obtain ⟨stored, hstored⟩ : ∃ stored, stored = Value.obj ((js "eventHash", .str hash) :: ks) :=
    ⟨_, rfl⟩
  have hget : ∀ name ∈ coreNames, get name stored = get name (.obj ks) := by
    intro name hname
    rw [hstored, get_cons, if_neg]
    exact fun heq => absurd (js_injective heq ▸ hname) (by decide)
  have hcanonical : ∀ name ∈ coreNames, canonicalValue
      (get name (.obj (newCore runId freshId now events input (host.sha256 text)))) =
        some (get name stored) := by
    intro name hname
    rw [hget name hname]
    exact canonical_get hcore (mem_map_of_mem hname)
  have hvalue : ∀ name ∈ coreNames, ∀ v,
      get name (.obj (newCore runId freshId now events input (host.sha256 text))) = v →
      canonicalValue v = some (get name stored) := by
    rintro name hname _ rfl
    exact hcanonical name hname
  have htype := hvalue "type" (by decide) input.type (by simp [newCore, get_cons])
  have hpayload := hvalue "payload" (by decide) (orElse (.obj []) input.payload)
    (by simp [newCore, get_cons])
  refine ⟨stored, ?_, ?_, htype, hpayload⟩
  · rw [h.event, hstored]
    unfold canonicalValue
    rw [hevent]
    rfl
  have hall : ((js "eventHash", .str hash) :: ks).all
      (fun m => eventKeys.any fun name => m.1 = js name) = true := by
    refine all_eq_true.mpr fun m hm => any_eq_true.mpr ?_
    have hname : m.1 ∈ eventKeys.map js := by
      have hmem := mem_map_of_mem (f := Prod.fst) hm
      rwa [map_cons, hnames] at hmem
    obtain ⟨name, hname, heq⟩ := mem_map.mp hname
    exact ⟨name, hname, decide_eq_true heq.symm⟩
  have hversion : isStr eventVersion (get "eventVersion" stored) = true := by
    rw [← some.inj (hvalue "eventVersion" (by decide) (.str (js eventVersion))
      (by simp [newCore, get_cons]))]
    exact decide_eq_true rfl
  have hrunId : strOf (get "runId" stored) = some runId := by
    rw [← some.inj (hvalue "runId" (by decide) (.str runId) (by simp [newCore, get_cons]))]
    rfl
  have hsequence : isNatural (events.length + 1) (get "sequence" stored) = true := by
    rw [← some.inj (hvalue "sequence" (by decide) (natural (events.length + 1))
      (by simp [newCore, get_cons]))]
    exact decide_eq_true rfl
  have hrevision : (toNatural (get "revision" stored)).isSome = true := by
    rw [← some.inj (hvalue "revision" (by decide) (.num number)
      (by simp [newCore, get_cons, hnumber])), ← hnumber]
    exact h.revision
  have heventId := hvalue "eventId" (by decide)
    (.str (toText (orElse (.str freshId) input.eventId))) (by simp [newCore, get_cons])
  have htimestamp := hvalue "timestamp" (by decide) (orElse (.str now) input.timestamp)
    (by simp [newCore, get_cons])
  have hdigest : (host.hashJson (get "payload" stored)).any
      (fun digest => hexEqual (.str digest) (get "payloadHash" stored)) = true := by
    rw [hashJson_canonical host hpayload, ← some.inj (hvalue "payloadHash" (by decide)
      (.str (host.sha256 text)) (by simp [newCore, get_cons]))]
    unfold Host.hashJson
    rw [h.payload]
    exact hexEqual_self (host.sha256_hex text)
  have hprevious : hexEqual (lastHash events) (get "previousEventHash" stored) = true := by
    rw [hlast, ← some.inj (hvalue "previousEventHash" (by decide) (.str last)
      (by simp [newCore, get_cons, hlast]))]
    exact hexEqual_self hhex
  have hchain : (host.hashJson (eventCore stored)).any
      (fun digest => hexEqual (.str digest) (get "eventHash" stored)) = true := by
    have hcoreOf : eventCore stored = .obj ks := by
      rw [eq_map_get (by decide) hnames, hstored]
      rfl
    rw [hcoreOf, hashJson_canonical host hw, h.hashed, hstored]
    refine hexEqual_self ?_
    rw [hhash]
    exact host.sha256_hex _
  rw [hstored]
  unfold validEvent
  simp only [← hstored, hall, hversion, hrunId, hsequence, hrevision, toText_canonical htype,
    h.type, hdigest, hprevious, hchain, decide_true, Bool.true_and, Bool.and_true,
    ← some.inj heventId, toText_canonical htimestamp]

end Ds4Studio.EvolutionLedger
