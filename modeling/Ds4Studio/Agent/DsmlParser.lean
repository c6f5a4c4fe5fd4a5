import Ds4Studio.Agent.Turn
import Ds4Studio.Lib.Search

/-!
The parser of the tool calls that the agent's model generates. It is fed byte by byte and parses
as much of what it has kept as it can.
-/

namespace Ds4Studio.Agent

open Bytes List Option

/-! ### Tags -/

def dsmlBar : Bytes := str "｜"

def isBlank (c : UInt8) : Bool := c = 0x20 || c = 0x09 || c = 0x0d || c = 0x0a

def skipBlank (s : Bytes) : Bytes := s.dropWhile isBlank

/-- `agent_parse_attr` -/
def parseAttr (tag name : Bytes) : Option Bytes :=
  match Search.cut ((name ++ str "=\"").take 63) tag with
  | none => none
  | some (_, p) => (Search.cut (str "\"") p).map Prod.fst

/-- `agent_dsml_open_tag_is` -/
def openTagIs (tag name : Bytes) : Bool :=
  let start := (str "<｜DSML｜" ++ name).take 63
  start <+: tag && ((tag.drop start.length).head?.any fun c => c = 0x3e || isBlank c)

/-- `agent_dsml_close_tag_at`, with the length of the tag. -/
def closeTagAt (name s : Bytes) : Option ℕ :=
  let start := (str "</｜DSML｜" ++ name).take 63
  if start <+: s then
    let p := skipBlank (s.drop start.length)
    let p := if dsmlBar <+: p then p.drop dsmlBar.length else p
    let p := skipBlank p
    if p.head? = some 0x3e then some (s.length - p.length + 1) else none
  else none

/-- `agent_dsml_find_close_tag`: where a closing tag stands, and its length. -/
def findCloseTag (name : Bytes) : Bytes → Option (ℕ × ℕ)
  | [] => none
  | c :: rest =>
      match closeTagAt name (c :: rest) with
      | some n => some (0, n)
      | none => (findCloseTag name rest).map fun found => (found.1 + 1, found.2)

/-- `agent_dsml_parameter_close_tail`: whether a text may be the front of a closing tag of a
parameter, and whether it is the whole tag. -/
def parameterCloseTail (tail : Bytes) : Bool × Bool :=
  let start := str "</｜DSML｜parameter"
  if tail.length ≤ start.length then (tail <+: start, false)
  else if ¬ start <+: tail then (false, false)
  else
    let p := skipBlank (tail.drop start.length)
    if p ≠ [] ∧ p.length ≤ dsmlBar.length ∧ p <+: dsmlBar then (true, false)
    else
      let p := if dsmlBar <+: p then p.drop dsmlBar.length else p
      match skipBlank p with
      | [] => (true, false)
      | 0x3e :: rest => (rest = [], rest = [])
      | _ :: _ => (false, false)

/-! ### The parser -/

structure DsmlParser where
  state : DsmlState
  searchTail : Bytes
  raw : Bytes
  parsePos : ℕ
  current : ToolCall
  paramName : Option Bytes
  paramValueStart : ℕ
  calls : List ToolCall
  error : Bytes
deriving DecidableEq

def ToolCall.empty : ToolCall := ⟨none, []⟩

def DsmlParser.empty : DsmlParser := ⟨.search, [], [], 0, .empty, none, 0, [], []⟩

namespace DsmlParser

/-- The C string at a position of what has been kept. -/
def at_ (p : DsmlParser) (pos : ℕ) : Bytes := cstr (p.raw.drop pos)

/-- `agent_dsml_set_error` -/
def setError (message : Bytes) (p : DsmlParser) : DsmlParser :=
  { p with state := .error, error := message.take 159 }

/-- `agent_tool_calls_push` of the current call -/
def pushCall (p : DsmlParser) : DsmlParser :=
  if p.current.name.isSome then { p with calls := p.calls ++ [p.current], current := .empty }
  else p

/-- A parameter that is closed. -/
def closeParam (i n : ℕ) (p : DsmlParser) : DsmlParser :=
  { p with
    current := { p.current with
      args := p.current.args ++
        [(p.paramName.getD [], (p.raw.drop p.paramValueStart).take i)] }
    paramName := none
    parsePos := p.paramValueStart + i + n
    state := .structural }

/-- A tag that is no closing tag of calls or of an invocation. -/
def openTag (tag : Bytes) (p : DsmlParser) : DsmlParser × Bool :=
  if openTagIs tag (str "invoke") then
    let p := { p with current := ⟨parseAttr tag (str "name"), []⟩ }
    if p.current.name = none then (p.setError (str "tool invoke without name"), false)
    else ({ p with parsePos := p.parsePos + tag.length }, true)
  else if openTagIs tag (str "parameter") then
    let p := { p with paramName := parseAttr tag (str "name") }
    if p.paramName = none then (p.setError (str "tool parameter without name"), false)
    else
      ({ p with
        parsePos := p.parsePos + tag.length
        paramValueStart := p.parsePos + tag.length
        state := .paramValue }, true)
  else (p.setError (str "unexpected DSML tag: " ++ tag.take 80), false)

/-- One pass of the loop of `agent_dsml_parse`, and whether there is another one. -/
def parseStep (p : DsmlParser) : DsmlParser × Bool :=
  match p.state with
  | .paramValue =>
      match findCloseTag (str "parameter") (p.at_ p.paramValueStart) with
      | none => (p, false)
      | some (i, n) => (p.closeParam i n, true)
  | .structural =>
      let pos := p.parsePos + ((p.raw.drop p.parsePos).takeWhile isBlank).length
      let p := { p with parsePos := pos }
      if p.raw.length ≤ pos then (p, false)
      else
        match closeTagAt (str "tool_calls") (p.at_ pos) with
        | some n => ({ p.pushCall with parsePos := pos + n, state := .done }, false)
        | none =>
            match closeTagAt (str "invoke") (p.at_ pos) with
            | some n => ({ p.pushCall with parsePos := pos + n }, true)
            | none =>
                match Search.find [0x3e] (p.at_ pos) with
                | none => (p, false)
                | some i => p.openTag ((p.at_ pos).take (i + 1))
  | _ => (p, false)

def parseLoop : ℕ → DsmlParser → DsmlParser
  | 0, p => p
  | n + 1, p =>
      match p.parseStep with
      | (p, true) => parseLoop n p
      | (p, false) => p

/-- `agent_dsml_parse` -/
def parse (p : DsmlParser) : DsmlParser := parseLoop (2 * p.raw.length + 2) p

def startTag : Bytes := str "<｜DSML｜tool_calls>"

/-- `agent_dsml_raw_append` -/
def rawAppend (s : Bytes) (p : DsmlParser) : DsmlParser := { p with raw := p.raw ++ s }

/-- `agent_dsml_start` -/
def start (p : DsmlParser) : DsmlParser :=
  { p.rawAppend startTag with
    state := .structural
    searchTail := []
    parsePos := startTag.length }

/-- `agent_dsml_feed` of one byte -/
def feed (c : UInt8) (p : DsmlParser) : DsmlParser :=
  match p.state with
  | .done | .error => p
  | .search =>
      let tail := if p.searchTail.length = 64 then p.searchTail.drop 1 else p.searchTail
      let p := { p with searchTail := tail ++ [c] }
      if startTag <:+ p.searchTail then p.start else p
  | _ => (p.rawAppend [c]).parse

end DsmlParser

/-! ### Closing tags -/

def closeStart (name : Bytes) : Bytes := (str "</｜DSML｜" ++ name).take 63

/-- The closing tags that are taken for one: white space and a second bar may stand in front of
the bracket. -/
def CloseTag (name t : Bytes) : Prop :=
  ∃ a bar b, t = closeStart name ++ (a ++ (bar ++ (b ++ [0x3e]))) ∧
    (∀ c ∈ a, isBlank c = true) ∧ (∀ c ∈ b, isBlank c = true) ∧ (bar = [] ∨ bar = dsmlBar)

theorem skipBlank_append {a : Bytes} (h : ∀ c ∈ a, isBlank c = true) (s : Bytes) :
    skipBlank (a ++ s) = skipBlank s :=
  dropWhile_append_of_pos h

theorem skipBlank_of_head {c : UInt8} (h : isBlank c = false) (s : Bytes) :
    skipBlank (c :: s) = c :: s := by
  simp [skipBlank, h]

theorem skipBlank_split (s : Bytes) : ∃ a, s = a ++ skipBlank s ∧ ∀ c ∈ a, isBlank c = true :=
  ⟨s.takeWhile isBlank, (takeWhile_append_dropWhile ..).symm,
    fun _ hc => mem_takeWhile_imp hc⟩

theorem dsmlBar_eq : dsmlBar = [0xef, 0xbd, 0x9c] := by decide

theorem skipBlank_bar (s : Bytes) : skipBlank (dsmlBar ++ s) = dsmlBar ++ s :=
  skipBlank_of_head (by decide) _

theorem bar_split (s : Bytes) : ∃ bar p, s = bar ++ p ∧ (bar = [] ∨ bar = dsmlBar) ∧
    (if dsmlBar <+: s then s.drop dsmlBar.length else s) = p := by
  split
  case isTrue hbar =>
    obtain ⟨p, hp⟩ := hbar
    exact ⟨dsmlBar, p, hp.symm, .inr rfl, by rw [← hp, drop_left]⟩
  case isFalse => exact ⟨[], s, rfl, .inl rfl, rfl⟩

variable {name s : Bytes} {n : ℕ}

theorem closeTagAt_eq_some_iff :
    closeTagAt name s = some n ↔ ∃ t rest, s = t ++ rest ∧ t.length = n ∧ CloseTag name t := by
  unfold closeTagAt
  constructor
  · intro h
    simp only at h
    split at h
    case isFalse => cases h
    case isTrue hstart =>
      obtain ⟨r, rfl⟩ := hstart
      rw [drop_left] at h
      obtain ⟨a, ha, hblank⟩ := skipBlank_split r
      obtain ⟨bar, p, hp, hbar, hdrop⟩ := bar_split (skipBlank r)
      rw [hdrop] at h
      obtain ⟨b, hb, hblank'⟩ := skipBlank_split p
      split at h
      case isFalse => cases h
      case isTrue hhead =>
        obtain ⟨rest, hrest⟩ : ∃ rest, skipBlank p = 0x3e :: rest := by
          cases hskip : skipBlank p with
          | nil =>
            rw [hskip] at hhead
            cases hhead
          | cons c rest =>
            rw [hskip] at hhead
            obtain rfl := some.inj hhead
            exact ⟨rest, rfl⟩
        refine ⟨closeStart name ++ (a ++ (bar ++ (b ++ [0x3e]))), rest, ?_, ?_,
          a, bar, b, rfl, hblank, hblank', hbar⟩
        · have hr : r = a ++ (bar ++ (b ++ 0x3e :: rest)) := by rw [← hrest, ← hb, ← hp, ← ha]
          rw [hr]
          simp [closeStart]
        · obtain rfl := some.inj h
          have hr : r = a ++ (bar ++ (b ++ 0x3e :: rest)) := by rw [← hrest, ← hb, ← hp, ← ha]
          rw [hrest, hr]
          simp only [closeStart, length_append, length_cons, length_nil]
          omega
  · rintro ⟨t, rest, rfl, rfl, a, bar, b, rfl, ha, hb, hbar⟩
    have hend : ∀ s : Bytes, skipBlank (b ++ 0x3e :: s) = 0x3e :: s := by
      intro s
      rw [skipBlank_append hb]
      exact skipBlank_of_head (by decide) s
    have hassoc : closeStart name ++ (a ++ (bar ++ (b ++ [0x3e]))) ++ rest =
        closeStart name ++ (a ++ (bar ++ (b ++ 0x3e :: rest))) := by simp
    have hstart : closeStart name <+: closeStart name ++ (a ++ (bar ++ (b ++ 0x3e :: rest))) :=
      prefix_append _ _
    unfold closeStart at hassoc hstart ⊢
    simp only
    rw [hassoc, if_pos hstart, drop_left, skipBlank_append ha]
    have hp : skipBlank (if dsmlBar <+: skipBlank (bar ++ (b ++ 0x3e :: rest)) then
        (skipBlank (bar ++ (b ++ 0x3e :: rest))).drop dsmlBar.length
        else skipBlank (bar ++ (b ++ 0x3e :: rest))) = 0x3e :: rest := by
      rcases hbar with rfl | rfl
      · rw [nil_append, hend, if_neg, skipBlank_of_head (by decide)]
        rintro ⟨t, ht⟩
        exact absurd (cons.inj ht).1 (by decide)
      · rw [skipBlank_bar, if_pos (prefix_append _ _), drop_left, hend]
    rw [hp]
    simp only [head?_cons, if_true, some.injEq, length_append, length_cons, length_nil]
    omega

theorem closeTagAt_bound (h : closeTagAt name s = some n) : 0 < n ∧ n ≤ s.length := by
  obtain ⟨tag, rest, rfl, rfl, a, bar, b, rfl, -⟩ := closeTagAt_eq_some_iff.mp h
  simp only [length_append, length_cons, length_nil]
  omega

theorem closeTagAt_bracket (h : closeTagAt name s = some n) :
    ∃ i, s[i]? = some 0x3e ∧ n = i + 1 := by
  obtain ⟨tag, rest, rfl, rfl, a, bar, b, rfl, -⟩ := closeTagAt_eq_some_iff.mp h
  refine ⟨(closeStart name ++ (a ++ (bar ++ b))).length, ?_, ?_⟩
  · rw [show closeStart name ++ (a ++ (bar ++ (b ++ [0x3e]))) ++ rest =
      (closeStart name ++ (a ++ (bar ++ b))) ++ 0x3e :: rest by simp]
    rw [getElem?_append_right (Nat.le_refl _), Nat.sub_self]
    rfl
  · simp only [length_append, length_singleton]
    omega

theorem closeTagAt_of_append {name s t : Bytes} (h : closeTagAt name (s ++ t) = some n)
    (hn : n ≤ s.length) : closeTagAt name s = some n := by
  obtain ⟨tag, rest, hs, rfl, htag⟩ := closeTagAt_eq_some_iff.mp h
  obtain ⟨more, rfl⟩ : tag <+: s :=
    prefix_of_prefix_length_le ⟨rest, hs.symm⟩ (prefix_append s t) hn
  exact closeTagAt_eq_some_iff.mpr ⟨tag, more, rfl, rfl, htag⟩

theorem findCloseTag_eq_none_iff :
    findCloseTag name s = none ↔ ∀ i, closeTagAt name (s.drop i) = none := by
  have hnil : closeTagAt name [] = none := by
    cases h : closeTagAt name [] with
    | none => rfl
    | some n =>
      have hbound := closeTagAt_bound h
      rw [length_nil] at hbound
      omega
  induction s with
  | nil => simp [findCloseTag, hnil]
  | cons c rest ih =>
    unfold findCloseTag
    cases h : closeTagAt name (c :: rest) with
    | some n =>
      simp only [reduceCtorEq, false_iff]
      intro hnone
      have hzero := hnone 0
      rw [drop_zero, h] at hzero
      cases hzero
    | none =>
      simp only [map_eq_none_iff, ih]
      constructor
      · intro hrest i
        cases i with
        | zero => exact h
        | succ i => exact hrest i
      · exact fun hall i => hall (i + 1)

theorem findCloseTag_some {i : ℕ} (h : findCloseTag name s = some (i, n)) :
    closeTagAt name (s.drop i) = some n := by
  induction s generalizing i with
  | nil => cases h
  | cons c rest ih =>
    unfold findCloseTag at h
    cases hclose : closeTagAt name (c :: rest) with
    | some m =>
      rw [hclose] at h
      cases h
      exact hclose
    | none =>
      rw [hclose] at h
      obtain ⟨⟨j, m⟩, hfound, heq⟩ := map_eq_some_iff.mp h
      cases heq
      exact ih hfound

theorem findCloseTag_concat {c : UInt8} {i : ℕ} (hnone : findCloseTag name s = none)
    (h : findCloseTag name (s ++ [c]) = some (i, n)) : i + n = s.length + 1 := by
  have htag := findCloseTag_some h
  obtain ⟨-, hbound⟩ := closeTagAt_bound htag
  rw [length_drop, length_append, length_singleton] at hbound
  by_contra hne
  have hi : i ≤ s.length := by
    have hpos := (closeTagAt_bound htag).1
    omega
  rw [drop_append_of_le_length hi] at htag
  have hold := closeTagAt_of_append htag (by rw [length_drop]; omega)
  rw [findCloseTag_eq_none_iff.mp hnone i] at hold
  cases hold

theorem closeTag_of_tail {t : Bytes} (h : parameterCloseTail t = (true, true)) :
    CloseTag (str "parameter") t := by
  have hstart : closeStart (str "parameter") = str "</｜DSML｜parameter" := by decide
  unfold parameterCloseTail at h
  simp only at h
  split at h
  case isTrue => simp at h
  case isFalse =>
    split at h
    case isTrue => simp at h
    case isFalse hprefix =>
      obtain ⟨r, rfl⟩ := not_not.mp hprefix
      rw [drop_left] at h
      obtain ⟨a, ha, hblank⟩ := skipBlank_split r
      split at h
      case isTrue => simp at h
      case isFalse =>
        obtain ⟨bar, p, hp, hbar, hdrop⟩ := bar_split (skipBlank r)
        rw [hdrop] at h
        obtain ⟨b, hb, hblank'⟩ := skipBlank_split p
        split at h
        case h_1 => simp at h
        case h_2 rest hskip =>
          simp only [Prod.mk.injEq, decide_eq_true_eq, and_self] at h
          subst h
          refine ⟨a, bar, b, ?_, hblank, hblank', hbar⟩
          rw [hstart, ← hskip, ← hb, ← hp, ← ha]
        case h_3 => simp at h

/-! ### The loop -/

namespace DsmlParser

structure Bounded (p : DsmlParser) : Prop where
  pos : p.parsePos ≤ p.raw.length
  start : p.state = .paramValue → p.paramValueStart = p.parsePos
  name : p.state = .paramValue → p.paramName.isSome = true

/-- What the loop has left to do. -/
def measure (p : DsmlParser) : ℕ :=
  2 * (p.raw.length - p.parsePos) + if p.state = .paramValue then 1 else 0

theorem at_length_le (p : DsmlParser) (pos : ℕ) : (p.at_ pos).length ≤ p.raw.length - pos := by
  rw [← length_drop]
  exact (takeWhile_sublist _).length_le

theorem findCloseTag_bound {name s : Bytes} {i n : ℕ} (h : findCloseTag name s = some (i, n)) :
    0 < n ∧ i + n ≤ s.length := by
  have hbound := closeTagAt_bound (findCloseTag_some h)
  rw [length_drop] at hbound
  omega

/-- What one pass of the loop leaves. -/
structure Passed (p : DsmlParser) (next : DsmlParser × Bool) : Prop where
  bounded : next.1.Bounded
  raw : next.1.raw = p.raw
  less : next.2 = true → next.1.measure < p.measure
  stopped : next.2 = false → next.1.state = .paramValue →
    findCloseTag (str "parameter") (next.1.at_ next.1.paramValueStart) = none

theorem pushCall_raw (p : DsmlParser) : p.pushCall.raw = p.raw := by
  unfold pushCall
  split <;> rfl

theorem pushCall_state (p : DsmlParser) : p.pushCall.state = p.state := by
  unfold pushCall
  split <;> rfl

variable {p : DsmlParser}

theorem openTag_passed (hstate : p.state = .structural) {tag : Bytes} (hpos : 0 < tag.length)
    (hbound : p.parsePos + tag.length ≤ p.raw.length) : Passed p (p.openTag tag) := by
  have hmeasure : p.measure = 2 * (p.raw.length - p.parsePos) := by simp [measure, hstate]
  unfold openTag
  split
  case isTrue =>
    simp only
    split
    case isTrue =>
      exact ⟨⟨by simp [setError]; omega, nofun, nofun⟩, rfl, nofun, fun _ => nofun⟩
    case isFalse =>
      refine ⟨⟨hbound, ?_, ?_⟩, rfl, fun _ => ?_, nofun⟩
      · intro h
        exact absurd (hstate.symm.trans h) nofun
      · intro h
        exact absurd (hstate.symm.trans h) nofun
      · rw [hmeasure]
        simp only [measure, hstate, reduceCtorEq, if_false]
        omega
  case isFalse =>
    split
    case isTrue =>
      simp only
      split
      case isTrue =>
        exact ⟨⟨by simp [setError]; omega, nofun, nofun⟩, rfl, nofun, fun _ => nofun⟩
      case isFalse hname =>
        refine ⟨⟨hbound, fun _ => rfl, fun _ => isSome_iff_ne_none.mpr hname⟩, rfl,
          fun _ => ?_, nofun⟩
        simp only [measure, if_true]
        omega
    case isFalse =>
      exact ⟨⟨by simp [setError]; omega, nofun, nofun⟩, rfl, nofun, fun _ => nofun⟩

theorem parseStep_passed (h : p.Bounded) : Passed p p.parseStep := by
  unfold parseStep
  split
  case h_1 hstate =>
    split
    case h_1 hnone => exact ⟨h, rfl, by simp, fun _ _ => hnone⟩
    case h_2 i n hfound =>
      have hbound := findCloseTag_bound hfound
      have hlength := p.at_length_le p.paramValueStart
      have hstart := h.start hstate
      refine ⟨⟨?_, by simp [closeParam], by simp [closeParam]⟩, rfl, fun _ => ?_, by simp⟩
      · simp only [closeParam]
        omega
      · simp only [measure, closeParam, hstate, reduceCtorEq, if_false, if_true]
        omega
  case h_2 hstate =>
    have hblank : ((p.raw.drop p.parsePos).takeWhile isBlank).length ≤
        p.raw.length - p.parsePos := by
      rw [← length_drop]
      exact (takeWhile_sublist _).length_le
    have hpos := h.pos
    generalize hq : p.parsePos + ((p.raw.drop p.parsePos).takeWhile isBlank).length = pos
    have hmeasure : p.measure = 2 * (p.raw.length - p.parsePos) := by simp [measure, hstate]
    have hnot : ¬ p.state = .paramValue := by simp [hstate]
    have hat : ({ p with parsePos := pos } : DsmlParser).at_ pos = p.at_ pos := rfl
    have hlength := p.at_length_le pos
    simp only [hat]
    split
    case isTrue =>
      exact ⟨⟨by simp only; omega, fun h => absurd h hnot, fun h => absurd h hnot⟩, rfl, by simp,
        fun _ h => absurd h hnot⟩
    case isFalse hlt =>
      split
      case h_1 n hclose =>
        have hbound := closeTagAt_bound hclose
        refine ⟨⟨?_, by simp, by simp⟩, pushCall_raw _, by simp, by simp⟩
        simp only [pushCall_raw]
        omega
      case h_2 =>
        split
        case h_1 n hclose =>
          have hbound := closeTagAt_bound hclose
          have hstate' :
              ({ p with parsePos := pos } : DsmlParser).pushCall.state ≠ .paramValue := by
            rw [pushCall_state]
            exact hnot
          refine ⟨⟨?_, fun h => absurd h hstate', fun h => absurd h hstate'⟩, pushCall_raw _,
            fun _ => ?_, by simp⟩
          · simp only [pushCall_raw]
            omega
          · rw [hmeasure]
            simp only [measure, pushCall_raw, hstate', if_false]
            omega
        case h_2 =>
          split
          case h_1 =>
            exact ⟨⟨by simp only; omega, fun h => absurd h hnot, fun h => absurd h hnot⟩, rfl,
              by simp, fun _ h => absurd h hnot⟩
          case h_2 i hfind =>
            have hbound := Search.find_bound hfind
            rw [length_singleton] at hbound
            have htag : ((p.at_ pos).take (i + 1)).length = i + 1 := by
              rw [length_take]
              omega
            have hpassed := @openTag_passed { p with parsePos := pos } hstate
              ((p.at_ pos).take (i + 1)) (by omega) (by simp only [htag]; omega)
            refine ⟨hpassed.bounded, hpassed.raw, fun hmore => ?_, hpassed.stopped⟩
            refine lt_of_lt_of_le (hpassed.less hmore) ?_
            simp only [measure, hnot, if_false]
            omega
  case h_3 hparam hstruct =>
    exact ⟨h, rfl, by simp, fun _ hstate => absurd hstate hparam⟩

theorem parseLoop_stopped {n : ℕ} (h : p.Bounded) (hn : p.measure < n) :
    (parseLoop n p).Bounded ∧ (parseLoop n p).raw = p.raw ∧
      ((parseLoop n p).state = .paramValue → findCloseTag (str "parameter")
        ((parseLoop n p).at_ (parseLoop n p).paramValueStart) = none) := by
  induction n generalizing p with
  | zero => omega
  | succ n ih =>
    have hpassed := parseStep_passed h
    unfold parseLoop
    split
    case h_1 next hstep =>
      rw [hstep] at hpassed
      have hless : next.measure < p.measure := hpassed.less rfl
      obtain ⟨hbounded, hraw, hstop⟩ := ih hpassed.bounded (by change next.measure < n; omega)
      exact ⟨hbounded, hraw.trans hpassed.raw, hstop⟩
    case h_2 next hstep =>
      rw [hstep] at hpassed
      exact ⟨hpassed.bounded, hpassed.raw, hpassed.stopped rfl⟩

theorem parse_stopped (h : p.Bounded) :
    p.parse.Bounded ∧ p.parse.raw = p.raw ∧ (p.parse.state = .paramValue →
      findCloseTag (str "parameter") (p.parse.at_ p.parse.paramValueStart) = none) := by
  refine parseLoop_stopped h ?_
  unfold measure
  split <;> omega

/-- Between two bytes a value that is being read has no closing tag. -/
structure Settled (p : DsmlParser) : Prop where
  bounded : p.Bounded
  unclosed : p.state = .paramValue →
    findCloseTag (str "parameter") (p.at_ p.paramValueStart) = none

theorem Bounded.concat (h : p.Bounded) (more : Bytes) : (p.rawAppend more).Bounded := by
  refine ⟨?_, h.start, h.name⟩
  have hpos := h.pos
  simp only [rawAppend, length_append]
  omega

theorem start_settled (p : DsmlParser) : p.start.Settled := by
  refine ⟨⟨?_, nofun, nofun⟩, nofun⟩
  simp [start, rawAppend]

theorem feed_settled (h : p.Settled) (c : UInt8) : (p.feed c).Settled := by
  unfold feed
  split
  · exact h
  · exact h
  case h_3 hstate =>
    simp only
    generalize (if p.searchTail.length = 64 then p.searchTail.drop 1 else p.searchTail) ++ [c] =
      tail
    split
    case isTrue => exact start_settled _
    case isFalse =>
      exact ⟨⟨h.bounded.pos, h.bounded.start, h.bounded.name⟩, h.unclosed⟩
  · obtain ⟨hbounded, -, hunclosed⟩ := parse_stopped (h.bounded.concat [c])
    exact ⟨hbounded, hunclosed⟩

theorem cstr_append {v : Bytes} (hv : (0 : UInt8) ∉ v) (c : UInt8) :
    cstr (v ++ [c]) = if c = 0 then v else v ++ [c] := by
  unfold cstr
  rw [takeWhile_append_of_pos (fun x hx => by simpa using fun h0 : x = 0 => hv (h0 ▸ hx))]
  by_cases hc : c = 0 <;> simp [hc]

theorem cstr_append_zero {v : Bytes} (hv : (0 : UInt8) ∈ v) (t : Bytes) :
    cstr (v ++ t) = cstr v := by
  induction v with
  | nil => cases hv
  | cons c v ih =>
    unfold cstr at ih ⊢
    rw [cons_append, takeWhile_cons, takeWhile_cons]
    split
    case isTrue hc =>
      rcases mem_cons.mp hv with rfl | hv
      · simp at hc
      · rw [ih hv]
    case isFalse => rfl

theorem parseLoop_stop {n : ℕ} {p q : DsmlParser} (h : p.parseStep = (q, false)) :
    parseLoop (n + 1) p = q := by
  unfold parseLoop
  rw [h]

theorem parseLoop_step {n : ℕ} {p q : DsmlParser} (h : p.parseStep = (q, true)) :
    parseLoop (n + 1) p = parseLoop n q := by
  conv_lhs => unfold parseLoop
  rw [h]

theorem parseStep_value (hstate : p.state = .paramValue) :
    p.parseStep = match findCloseTag (str "parameter") (p.at_ p.paramValueStart) with
      | none => (p, false)
      | some (i, n) => (p.closeParam i n, true) := by
  unfold parseStep
  rw [hstate]

theorem parseStep_end (hstate : p.state = .structural) (hend : p.parsePos = p.raw.length) :
    p.parseStep = (p, false) := by
  have hdrop : p.raw.drop p.parsePos = [] := by rw [hend, drop_length]
  obtain ⟨state, searchTail, raw, parsePos, current, paramName, paramValueStart, calls, error⟩ := p
  obtain rfl : state = .structural := hstate
  simp only [parseStep, hdrop, takeWhile_nil, length_nil, Nat.add_zero]
  rw [if_pos (Nat.le_of_eq hend.symm)]

theorem feed_param (h : p.Settled) (hstate : p.state = .paramValue) (c : UInt8) :
    (findCloseTag (str "parameter") (cstr (p.raw.drop p.paramValueStart ++ [c])) = none ∧
        p.feed c = p.rawAppend [c]) ∨
      ∃ i n, (0 : UInt8) ∉ p.raw.drop p.paramValueStart ∧
        findCloseTag (str "parameter") (p.raw.drop p.paramValueStart ++ [c]) = some (i, n) ∧
        p.feed c = (p.rawAppend [c]).closeParam i n := by
  have hstart := h.bounded.start hstate
  have hpos := h.bounded.pos
  have hat : (p.rawAppend [c]).at_ (p.rawAppend [c]).paramValueStart =
      cstr (p.raw.drop p.paramValueStart ++ [c]) := by
    have hle : p.paramValueStart ≤ p.raw.length := by omega
    unfold at_ rawAppend
    rw [drop_append_of_le_length hle]
  have hfeed : p.feed c = (p.rawAppend [c]).parse := by
    unfold feed
    rw [hstate]
  have hunclosed := h.unclosed hstate
  unfold at_ at hunclosed
  cases hfound : findCloseTag (str "parameter") (cstr (p.raw.drop p.paramValueStart ++ [c])) with
  | none =>
    refine .inl ⟨rfl, ?_⟩
    rw [hfeed]
    refine parseLoop_stop ?_
    rw [parseStep_value (p := p.rawAppend [c]) hstate, hat, hfound]
  | some found =>
    obtain ⟨i, n⟩ := found
    have hzero : (0 : UInt8) ∉ p.raw.drop p.paramValueStart := by
      intro hmem
      rw [cstr_append_zero hmem, hunclosed] at hfound
      cases hfound
    have hc : c ≠ 0 := by
      rintro rfl
      rw [cstr_append hzero, if_pos rfl, ← cstr_eq_self hzero, hunclosed] at hfound
      cases hfound
    rw [cstr_append hzero, if_neg hc] at hfound
    rw [cstr_eq_self hzero] at hunclosed
    have hend := findCloseTag_concat hunclosed hfound
    rw [length_drop] at hend
    refine .inr ⟨i, n, hzero, hfound, ?_⟩
    rw [hfeed]
    unfold parse
    rw [parseLoop_step (q := (p.rawAppend [c]).closeParam i n)]
    · refine parseLoop_stop (parseStep_end rfl ?_)
      simp only [closeParam, rawAppend, length_append, length_singleton]
      omega
    · rw [parseStep_value (p := p.rawAppend [c]) hstate, hat, cstr_append hzero, if_neg hc, hfound]

/-! ### Between two tags -/

theorem at_skip (p : DsmlParser) (pos : ℕ) :
    p.at_ (pos + ((p.raw.drop pos).takeWhile isBlank).length) =
      (p.at_ pos).drop ((p.raw.drop pos).takeWhile isBlank).length := by
  unfold at_
  rw [← drop_drop]
  generalize p.raw.drop pos = s
  induction s with
  | nil => rfl
  | cons c s ih =>
    by_cases hc : isBlank c = true
    · have hzero : c ≠ 0 := by
        rintro rfl
        exact absurd hc (by decide)
      rw [takeWhile_cons_of_pos hc, length_cons]
      unfold cstr at ih ⊢
      rw [takeWhile_cons_of_pos (by simpa using hzero)]
      exact ih
    · rw [takeWhile_cons_of_neg hc]
      rfl

theorem parseStep_structural (hstate : p.state = .structural) :
    (p.parseStep.2 = false ∧ p.parseStep.1.state = .structural ∧
        (0x3e : UInt8) ∉ p.parseStep.1.at_ p.parseStep.1.parsePos) ∨
      ∃ i, (p.at_ p.parsePos)[i]? = some 0x3e ∧
        ((p.parseStep.2 = false ∧ (p.parseStep.1.state = .done ∨ p.parseStep.1.state = .error)) ∨
          (p.parseStep.2 = true ∧ p.parseStep.1.parsePos = p.parsePos + i + 1 ∧
            (p.parseStep.1.state = .structural ∨ p.parseStep.1.state = .paramValue))) := by
  have hskip := p.at_skip p.parsePos
  unfold parseStep
  split
  case h_1 hparam => exact absurd (hstate.symm.trans hparam) nofun
  case h_3 hstruct => exact absurd hstate hstruct
  case h_2 =>
    generalize ((p.raw.drop p.parsePos).takeWhile isBlank).length = k at hskip ⊢
    have hat : ({ p with parsePos := p.parsePos + k } : DsmlParser).at_ (p.parsePos + k) =
      p.at_ (p.parsePos + k) := rfl
    have hindex : ∀ {j : ℕ}, (p.at_ (p.parsePos + k))[j]? = some 0x3e →
        (p.at_ p.parsePos)[k + j]? = some 0x3e := by
      intro j hj
      rwa [hskip, getElem?_drop] at hj
    simp only [hat]
    split
    case isTrue hend =>
      have hnil : p.raw.drop (p.parsePos + k) = [] := drop_eq_nil_iff.mpr hend
      refine .inl ⟨rfl, hstate, ?_⟩
      rw [at_, hnil]
      exact not_mem_nil
    case isFalse =>
      split
      case h_1 n hclose =>
        obtain ⟨j, hj, rfl⟩ := closeTagAt_bracket hclose
        exact .inr ⟨k + j, hindex hj, .inl ⟨rfl, .inl rfl⟩⟩
      case h_2 =>
        split
        case h_1 n hclose =>
          obtain ⟨j, hj, rfl⟩ := closeTagAt_bracket hclose
          refine .inr ⟨k + j, hindex hj, .inr ⟨rfl, by simp only; omega, .inl ?_⟩⟩
          exact (pushCall_state _).trans hstate
        case h_2 =>
          split
          case h_1 hfind =>
            rw [Search.find_eq_none_iff, singleton_infix_iff] at hfind
            exact .inl ⟨rfl, hstate, hfind⟩
          case h_2 j hfind =>
            have hj : (p.at_ (p.parsePos + k))[j]? = some 0x3e := by
              obtain ⟨-, ⟨rest, hrest⟩, -⟩ := (Search.find_eq_some_iff _ _ _).mp hfind
              have hhead := congrArg (fun t => t[0]?) hrest
              simpa using hhead.symm
            have hlength : ((p.at_ (p.parsePos + k)).take (j + 1)).length = j + 1 := by
              rw [length_take]
              obtain ⟨hlt, -⟩ := List.getElem?_eq_some_iff.mp hj
              omega
            refine .inr ⟨k + j, hindex hj, ?_⟩
            unfold openTag
            simp only [hlength]
            repeat' split
            · exact .inl ⟨rfl, .inr rfl⟩
            · exact .inr ⟨rfl, by simp only; omega, .inl hstate⟩
            · exact .inl ⟨rfl, .inr rfl⟩
            · exact .inr ⟨rfl, by simp only; omega, .inr rfl⟩
            · exact .inl ⟨rfl, .inr rfl⟩

theorem feed_structural (h : p.Bounded) (hstate : p.state = .structural)
    (hquiet : (0x3e : UInt8) ∉ p.at_ p.parsePos) (c : UInt8) :
    ((p.feed c).state = .structural ∧ (0x3e : UInt8) ∉ (p.feed c).at_ (p.feed c).parsePos) ∨
      (c = 0x3e ∧ (((p.feed c).state = .paramValue ∧
          (p.feed c).raw.drop (p.feed c).paramValueStart = []) ∨
        (p.feed c).state = .done ∨ (p.feed c).state = .error)) := by
  have hfeed : p.feed c = (p.rawAppend [c]).parse := by
    unfold feed
    rw [hstate]
  have hlast : ∀ i, ((p.rawAppend [c]).at_ p.parsePos)[i]? = some 0x3e →
      c = 0x3e ∧ p.parsePos + i + 1 = (p.rawAppend [c]).raw.length := by
    intro i hi
    have hpos := h.pos
    have hat : (p.rawAppend [c]).at_ p.parsePos = cstr (p.raw.drop p.parsePos ++ [c]) := by
      unfold at_ rawAppend
      rw [drop_append_of_le_length hpos]
    unfold at_ at hquiet
    rw [hat] at hi
    by_cases hzero : (0 : UInt8) ∈ p.raw.drop p.parsePos
    · rw [cstr_append_zero hzero] at hi
      exact absurd (mem_of_getElem? hi) hquiet
    · rw [cstr_append hzero] at hi
      rw [cstr_eq_self hzero] at hquiet
      split at hi
      case isTrue => exact absurd (mem_of_getElem? hi) hquiet
      case isFalse =>
        rw [getElem?_append] at hi
        split at hi
        case isTrue => exact absurd (mem_of_getElem? hi) hquiet
        case isFalse hle =>
          rw [length_drop] at hle hi
          rw [getElem?_singleton] at hi
          split at hi
          case isTrue heq =>
            refine ⟨some.inj hi, ?_⟩
            simp only [rawAppend, length_append, length_singleton]
            omega
          case isFalse => cases hi
  have hpassed := parseStep_passed (h.concat [c])
  rw [hfeed]
  unfold parse
  rcases hstep : (p.rawAppend [c]).parseStep with ⟨q, more⟩
  have hread := parseStep_structural (p := p.rawAppend [c]) hstate
  rw [hstep] at hpassed hread
  have hraw : q.raw = (p.rawAppend [c]).raw := hpassed.raw
  rcases hread with ⟨rfl, hstruct, hquiet'⟩ | ⟨i, hi, ⟨rfl, hstop⟩ | ⟨rfl, hpos, hmore⟩⟩
  · rw [parseLoop_stop hstep]
    exact .inl ⟨hstruct, hquiet'⟩
  · rw [parseLoop_stop hstep]
    exact .inr ⟨(hlast i hi).1, .inr hstop⟩
  · obtain ⟨hc, hend⟩ := hlast i hi
    have hdrop : q.raw.drop q.parsePos = [] := by
      rw [hraw, hpos]
      exact drop_eq_nil_iff.mpr (Nat.le_of_eq hend.symm)
    have hat : q.at_ q.parsePos = [] := by
      rw [at_, hdrop]
      rfl
    rw [parseLoop_step hstep]
    rcases hmore with hstruct | hparam
    · rw [parseLoop_stop (parseStep_end hstruct (by rw [hraw, hpos]; exact hend))]
      exact .inl ⟨hstruct, by rw [hat]; exact not_mem_nil⟩
    · have hstart := hpassed.bounded.start hparam
      rw [parseLoop_stop (q := q)]
      · exact .inr ⟨hc, .inl ⟨hparam, by rw [hstart]; exact hdrop⟩⟩
      · rw [parseStep_value hparam, hstart, hat]
        rfl

end DsmlParser

end Ds4Studio.Agent
