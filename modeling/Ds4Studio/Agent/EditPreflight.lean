import Ds4Studio.Agent.StreamRenderer
import Ds4Studio.Files.EditRegion

/-!
Stopping an edit whose old text selects nothing. The check runs where the parser has left the
value of the parameter and the visualiser has not; as a rule both leave it with the same byte.
-/

namespace Ds4Studio.Agent

open Bytes List Option
open Files (Disk readFileBytes editFindOldSpan snprintf)

/-! ### The visualiser -/

/-- The closing tag is in the tail, but for the byte. -/
def Visualizer.Completes (c : UInt8) (v : Visualizer) : Prop :=
  v.paramEndTail.length ≠ 64 ∧ parameterCloseTail (v.paramEndTail ++ [c]) = (true, true)

theorem Visualizer.paramValueByte_cases (c : UInt8) (v : Visualizer) :
    (v.Completes c ∧ (v.paramValueByte c).paramActive = false) ∨
      (¬ v.Completes c ∧ (v.paramValueByte c).paramActive = v.paramActive ∧
        (v.paramValueByte c).paramName = v.paramName ∧
        ((v.paramValueByte c).paramEndTail = [] ∨ (v.paramValueByte c).paramEndTail = [c] ∨
          (v.paramValueByte c).paramEndTail = v.paramEndTail ++ [c])) := by
  have hshort : parameterCloseTail [c] ≠ (true, true) := by
    have hlength : [c].length ≤ (str "</｜DSML｜parameter").length :=
      (by decide : 1 ≤ (str "</｜DSML｜parameter").length)
    unfold parameterCloseTail
    rw [if_pos hlength]
    simp
  have hmatch : ∀ t : Bytes, parameterCloseTail t ≠ (true, true) →
      ({ v with paramEndTail := t } : Visualizer).matchTail.paramActive = v.paramActive ∧
      ({ v with paramEndTail := t } : Visualizer).matchTail.paramName = v.paramName ∧
      (({ v with paramEndTail := t } : Visualizer).matchTail.paramEndTail = [] ∨
        ({ v with paramEndTail := t } : Visualizer).matchTail.paramEndTail = t) := by
    intro t ht
    unfold matchTail
    split
    case h_1 heq => exact absurd heq ht
    case h_2 => exact ⟨rfl, rfl, .inr rfl⟩
    case h_3 => exact ⟨rfl, rfl, .inl rfl⟩
  unfold Completes paramValueByte
  by_cases hstart : v.paramEndTail ≠ [] ∨ c = 0x3c
  · rw [if_pos hstart]
    by_cases hfull : v.paramEndTail.length = 64
    · rw [if_pos hfull]
      refine .inr ⟨fun h => h.1 hfull, ?_⟩
      split
      case isTrue => exact ⟨rfl, rfl, .inl rfl⟩
      case isFalse =>
        obtain ⟨hactive, hname, htail⟩ := hmatch [c] hshort
        exact ⟨hactive, hname, htail.imp_right .inl⟩
    · rw [if_neg hfull]
      by_cases hcomplete : parameterCloseTail (v.paramEndTail ++ [c]) = (true, true)
      · refine .inl ⟨⟨hfull, hcomplete⟩, ?_⟩
        simp only [matchTail, hcomplete]
        rfl
      · obtain ⟨hactive, hname, htail⟩ := hmatch _ hcomplete
        exact .inr ⟨fun h => hcomplete h.2, hactive, hname, htail.imp_right .inr⟩
  · rw [if_neg hstart]
    obtain ⟨htail, -⟩ := not_or.mp hstart
    rw [not_not] at htail
    refine .inr ⟨fun h => ?_, rfl, rfl, .inl htail⟩
    rw [htail] at h
    exact hshort h.2

/-! ### The visualiser follows the parser -/

/-- The visualiser is in the parameter that the parser reads, and its tail is the end of the value;
behind a zero byte the parser reads no more. -/
structure VizSync (s : StreamRenderer) : Prop where
  param : s.parser.state = .paramValue →
    (0 : UInt8) ∈ s.parser.raw.drop s.parser.paramValueStart ∨
      (s.viz.paramActive = true ∧
        (∃ name, s.parser.paramName = some name ∧ s.viz.paramName = snprintf 64 name) ∧
        s.viz.paramEndTail <:+ s.parser.raw.drop s.parser.paramValueStart)
  other : s.parser.state ≠ .paramValue → s.viz.paramActive = false

structure Synced (s : StreamRenderer) : Prop where
  settled : s.parser.Settled
  viz : s.dsmlActive = true → s.dsmlIgnored = false → VizSync s

theorem Synced.of_eq {s t : StreamRenderer} (h : Synced s) (hparser : t.parser = s.parser)
    (hviz : t.viz = s.viz) (hactive : t.dsmlActive = s.dsmlActive)
    (hignored : t.dsmlIgnored = s.dsmlIgnored) : Synced t := by
  refine ⟨hparser ▸ h.settled, fun hact hign => ?_⟩
  rw [hactive] at hact
  rw [hignored] at hign
  obtain ⟨hparam, hother⟩ := h.viz hact hign
  constructor
  · rw [hparser, hviz]
    exact hparam
  · rw [hparser, hviz]
    exact hother

theorem synced_of_inactive {s : StreamRenderer} (h : s.parser.Settled)
    (hactive : s.dsmlActive = false) : Synced s := by
  refine ⟨h, fun hact => ?_⟩
  rw [hactive] at hact
  cases hact

theorem empty_settled : DsmlParser.empty.Settled := ⟨⟨Nat.zero_le _, nofun, nofun⟩, nofun⟩

theorem setError_settled {p : DsmlParser} (h : p.Settled) (message : Bytes) :
    (p.setError message).Settled :=
  ⟨⟨h.bounded.pos, nofun, nofun⟩, nofun⟩

/-- A complete tail is a closing tag at the end of the value, which the parser finds. -/
theorem Visualizer.Completes.closed {v : Visualizer} {c : UInt8} (h : v.Completes c) {value : Bytes}
    (htail : v.paramEndTail <:+ value) : findCloseTag (str "parameter") (value ++ [c]) ≠ none := by
  obtain ⟨front, rfl⟩ := htail
  intro hnone
  have htag := closeTag_of_tail h.2
  have hat := findCloseTag_eq_none_iff.mp hnone front.length
  rw [append_assoc, drop_left] at hat
  rw [closeTagAt_eq_some_iff.mpr ⟨_, [], (append_nil _).symm, rfl, htag⟩] at hat
  cases hat

namespace StreamRenderer

variable (disk : Disk)

@[simp]
theorem preflightClosedParam_parses (s : StreamRenderer) :
    (s.preflightClosedParam disk).parser = s.parser := by
  unfold preflightClosedParam
  repeat' split
  all_goals rfl

variable (c : UInt8)

@[simp]
theorem vizByte_parses (s : StreamRenderer) : (s.vizByte disk c).parser = s.parser := by
  unfold vizByte
  simp only
  split <;> simp

/-- The visualiser behind a byte: out of the parameter if the parser is. -/
theorem vizByte_viz (s : StreamRenderer) :
    (s.parser.state = .paramValue ∧ (s.vizByte disk c).viz = s.viz.paramValueByte c) ∨
      (s.parser.state ≠ .paramValue ∧ (s.vizByte disk c).viz.paramActive = false) := by
  unfold vizByte
  simp only
  by_cases hstate : s.parser.state = .paramValue
  · rw [if_neg (fun h => h.1 hstate)]
    exact .inl ⟨hstate, rfl⟩
  · refine .inr ⟨hstate, ?_⟩
    split
    case isTrue => rfl
    case isFalse hactive =>
      simpa using fun h => hactive ⟨hstate, h⟩

variable {s : StreamRenderer}

theorem toolEvents_eq_self (h : s.viz.paramActive = true ∨ s.parser.state ≠ .paramValue) :
    s.toolEvents = s := by
  unfold toolEvents
  split
  case h_1 name hstate hname =>
    rw [if_pos (h.resolve_right fun hne => hne hstate)]
  case h_2 => rfl

theorem toolEvents_begin {name : Bytes} (hactive : s.viz.paramActive = false)
    (hstate : s.parser.state = .paramValue) (hname : s.parser.paramName = some name) :
    s.toolEvents = { s with viz := s.viz.paramBegin name } := by
  unfold toolEvents
  rw [hstate, hname]
  simp [hactive]

@[simp]
theorem projected_parses (wasParam : Bool) (s : StreamRenderer) :
    (s.projected disk c wasParam).parser = s.parser := by
  have htool : s.toolEvents.parser = s.parser := by
    unfold toolEvents
    repeat' split
    all_goals rfl
  unfold projected
  split
  · rfl
  · simp only
    split
    · rw [vizByte_parses, htool]
    · exact htool

theorem projected_value {disk : Disk} {c : UInt8} (hallowed : s.dsmlIgnored = false)
    (hactive : s.viz.paramActive = true) :
    (s.parsed c).projected disk c (!s.dsmlIgnored && s.viz.paramActive) =
      (s.parsed c).vizByte disk c := by
  have hallowed' : (s.parsed c).dsmlIgnored = false := hallowed
  have hactive' : (s.parsed c).viz.paramActive = true := hactive
  unfold projected
  rw [if_neg (by rw [hallowed']; decide), toolEvents_eq_self (.inl hactive'), hactive, hallowed,
    if_pos (by decide)]

theorem projected_vizSync (hsettled : s.parser.Settled) (h : VizSync s)
    (hignored : s.dsmlIgnored = false) (disk : Disk) (c : UInt8) :
    VizSync ((s.parsed c).projected disk c (!s.dsmlIgnored && s.viz.paramActive)) := by
  have hsettled' : (s.parsed c).parser.Settled := DsmlParser.feed_settled hsettled c
  by_cases hstate : s.parser.state = .paramValue
  case neg =>
    have hactive : (s.parsed c).viz.paramActive = false := h.other hstate
    have hprojected : (s.parsed c).projected disk c (!s.dsmlIgnored && s.viz.paramActive) =
        (s.parsed c).toolEvents := by
      have hignored' : (s.parsed c).dsmlIgnored = false := hignored
      unfold projected
      rw [if_neg (by rw [hignored']; decide), h.other hstate, Bool.and_false, if_neg (by decide)]
    rw [hprojected]
    by_cases hstate' : (s.parsed c).parser.state = .paramValue
    · obtain ⟨name, hname⟩ := isSome_iff_exists.mp (hsettled'.bounded.name hstate')
      rw [toolEvents_begin hactive hstate' hname]
      exact ⟨fun _ => .inr ⟨rfl, ⟨name, hname, rfl⟩, nil_suffix⟩, fun hne => absurd hstate' hne⟩
    · rw [toolEvents_eq_self (.inr hstate')]
      exact ⟨fun hparam => absurd hparam hstate', fun _ => hactive⟩
  case pos =>
    have hle : s.parser.paramValueStart ≤ s.parser.raw.length := by
      rw [hsettled.bounded.start hstate]
      exact hsettled.bounded.pos
    rcases DsmlParser.feed_param hsettled hstate c with
      ⟨hopen, hfeed⟩ | ⟨i, n, hzero, -, hfeed⟩
    · -- The value goes on.
      have hparser : (s.parsed c).parser = s.parser.rawAppend [c] := hfeed
      have hstate' : (s.parsed c).parser.state = .paramValue := by
        rw [hparser]
        exact hstate
      have hdrop : (s.parsed c).parser.raw.drop (s.parsed c).parser.paramValueStart =
          s.parser.raw.drop s.parser.paramValueStart ++ [c] := by
        rw [hparser]
        exact drop_append_of_le_length hle
      refine ⟨fun _ => ?_, fun hne => ?_⟩
      · rw [projected_parses, hdrop]
        by_cases hzero : (0 : UInt8) ∈ s.parser.raw.drop s.parser.paramValueStart ++ [c]
        · exact .inl hzero
        · refine .inr ?_
          rw [cstr_eq_self hzero] at hopen
          obtain ⟨hactive, ⟨name, hname, hviz⟩, htail⟩ := (h.param hstate).resolve_left
            fun hmem => hzero (mem_append_left _ hmem)
          rw [projected_value hignored hactive]
          rcases vizByte_viz disk c (s.parsed c) with ⟨-, hbyte⟩ | ⟨hne, -⟩
          · rw [hbyte]
            rcases s.viz.paramValueByte_cases c with ⟨hcomplete, -⟩ | ⟨-, hact, hname', hend⟩
            · exact absurd hopen (hcomplete.closed htail)
            · refine ⟨hact.trans hactive, ⟨name, ?_, hname'.trans hviz⟩, ?_⟩
              · rw [hparser]
                exact hname
              · obtain ⟨front, hfront⟩ := htail
                change (s.viz.paramValueByte c).paramEndTail <:+ _
                rcases hend with hend | hend | hend
                · rw [hend]
                  exact nil_suffix
                · rw [hend]
                  exact suffix_append _ _
                · rw [hend]
                  exact ⟨front, by rw [← append_assoc, hfront]⟩
          · exact absurd hstate' hne
      · rw [projected_parses] at hne
        exact absurd hstate' hne
    · -- The byte ends the closing tag.
      have hstate' : (s.parsed c).parser.state ≠ .paramValue := by
        have hparser : (s.parsed c).parser = (s.parser.rawAppend [c]).closeParam i n := hfeed
        rw [hparser]
        nofun
      refine ⟨fun hparam => ?_, fun _ => ?_⟩
      · rw [projected_parses] at hparam
        exact absurd hparam hstate'
      · obtain ⟨hactive, -⟩ := (h.param hstate).resolve_left hzero
        rw [projected_value hignored hactive]
        rcases vizByte_viz disk c (s.parsed c) with ⟨hparam, -⟩ | ⟨-, hbyte⟩
        · exact absurd hparam hstate'
        · exact hbyte

/-! ### Every stream -/

theorem finishIgnoredDsml_synced (s : StreamRenderer) : Synced s.finishIgnoredDsml :=
  synced_of_inactive empty_settled rfl

theorem vizByte_active (s : StreamRenderer) :
    (s.vizByte disk c).dsmlActive = s.dsmlActive ∧
      (s.vizByte disk c).dsmlIgnored = s.dsmlIgnored := by
  have hpreflight : ∀ t : StreamRenderer,
      (t.preflightClosedParam disk).dsmlActive = t.dsmlActive ∧
        (t.preflightClosedParam disk).dsmlIgnored = t.dsmlIgnored := by
    intro t
    unfold preflightClosedParam
    repeat' split
    all_goals exact ⟨rfl, rfl⟩
  unfold vizByte
  simp only
  split
  · exact hpreflight _
  · exact ⟨rfl, rfl⟩

theorem projected_active (wasParam : Bool) (s : StreamRenderer) :
    (s.projected disk c wasParam).dsmlActive = s.dsmlActive ∧
      (s.projected disk c wasParam).dsmlIgnored = s.dsmlIgnored := by
  have htool : s.toolEvents.dsmlActive = s.dsmlActive ∧
      s.toolEvents.dsmlIgnored = s.dsmlIgnored := by
    unfold toolEvents
    repeat' split
    all_goals exact ⟨rfl, rfl⟩
  unfold projected
  split
  · exact ⟨rfl, rfl⟩
  · simp only
    split
    · obtain ⟨hactive, hignored⟩ := vizByte_active disk c s.toolEvents
      exact ⟨hactive.trans htool.1, hignored.trans htool.2⟩
    · exact htool

theorem endDsml_synced (h : Synced s) : Synced s.endDsml := by
  unfold endDsml
  split
  · split
    · exact finishIgnoredDsml_synced s
    · exact synced_of_inactive h.settled rfl
  · split
    · exact finishIgnoredDsml_synced s
    · exact synced_of_inactive h.settled rfl
  · exact h

theorem feedDsmlByte_synced (h : Synced s) (disk : Disk) (c : UInt8) :
    Synced (s.feedDsmlByte disk c) := by
  refine endDsml_synced ⟨?_, fun hactive hignored => ?_⟩
  · rw [projected_parses]
    exact DsmlParser.feed_settled h.settled c
  · obtain ⟨hact, hign⟩ :=
      projected_active disk c (!s.dsmlIgnored && s.viz.paramActive) (s.parsed c)
    have hignored' : s.dsmlIgnored = false := hign.symm.trans hignored
    exact projected_vizSync h.settled (h.viz (hact.symm.trans hactive) hignored') hignored' disk c

theorem startDsml_synced (ignored : Bool) (s : StreamRenderer) : Synced (s.startDsml ignored) := by
  have hsettled := DsmlParser.start_settled s.parser
  have hstate : s.parser.start.state ≠ .paramValue := nofun
  unfold startDsml
  split
  case isTrue hign =>
    refine ⟨hsettled, fun _ hignored => ?_⟩
    rw [hign] at hignored
    cases hignored
  case isFalse =>
    exact ⟨hsettled, fun _ _ => ⟨fun hparam => absurd hparam hstate, fun _ => rfl⟩⟩

section

variable (h : Synced s)

include h

theorem noteThinkingDsmlByte_synced (c : UInt8) : Synced (s.noteThinkingDsmlByte c) := by
  unfold noteThinkingDsmlByte
  split
  · exact h
  · exact h.of_eq rfl rfl rfl rfl

theorem closeGap_synced : Synced s.closeGap := h.of_eq rfl rfl rfl rfl

theorem hold_synced (tail : Bytes) : Synced (s.hold tail) := h.of_eq rfl rfl rfl rfl

theorem notePlainDsmlByte_synced (c : UInt8) : Synced (s.notePlainDsmlByte c) := by
  unfold notePlainDsmlByte
  split
  case isTrue => exact h
  case isFalse =>
    split
    case isTrue => exact h
    case isFalse hidle =>
      have hactive : s.dsmlActive = false := by simpa using fun hactive => hidle (.inl hactive)
      simp only
      split
      · unfold malformedDsml
        split
        · exact h.of_eq rfl rfl rfl rfl
        · exact synced_of_inactive (setError_settled h.settled _) hactive
      · exact h.of_eq rfl rfl rfl rfl

theorem notePlain_synced (bytes : Bytes) : Synced (notePlain bytes s) := by
  induction bytes generalizing s with
  | nil => exact h
  | cons c rest ih =>
    unfold notePlain
    simp only
    split
    · exact notePlainDsmlByte_synced h c
    · exact ih (notePlainDsmlByte_synced h c)

theorem flushStartTail_synced : Synced s.flushStartTail := by
  unfold flushStartTail
  split
  · exact h
  · exact hold_synced (notePlain_synced (closeGap_synced h) _) []

theorem normalByte_synced (disk : Disk) (c : UInt8) : Synced (s.normalByte disk c) := by
  have hnoted := noteThinkingDsmlByte_synced h c
  unfold normalByte
  split
  case isTrue => exact h
  case isFalse =>
    simp only
    split
    case isTrue => exact hnoted
    case isFalse =>
      split
      case isFalse => exact notePlainDsmlByte_synced (closeGap_synced hnoted) c
      case isTrue =>
        generalize (if (s.noteThinkingDsmlByte c).dsmlStartTail.length < 64 then
          (s.noteThinkingDsmlByte c).dsmlStartTail ++ [c]
          else (s.noteThinkingDsmlByte c).dsmlStartTail) = tail
        split
        case h_1 form implicit hmatch =>
          split
          case isFalse => exact hold_synced hnoted _
          case isTrue =>
            have hstarted := startDsml_synced (s.noteThinkingDsmlByte c).inThink
              (s.noteThinkingDsmlByte c)
            split
            case isFalse => exact hstarted
            case isTrue =>
              have hfold : ∀ (bytes : Bytes) (t : StreamRenderer), Synced t →
                  Synced (bytes.foldl (fun s c => s.feedDsmlByte disk c) t) := by
                intro bytes
                induction bytes with
                | nil => exact fun _ ht => ht
                | cons d rest ih => exact fun t ht => ih _ (feedDsmlByte_synced ht disk d)
              exact hfold _ _ hstarted
        case h_2 =>
          split
          · exact hold_synced (notePlain_synced (closeGap_synced hnoted) _) _
          · exact flushStartTail_synced (hold_synced hnoted _)

theorem textStep_synced (disk : Disk) (last : Bool) (c : UInt8) (rest : Bytes) :
    Synced (s.textStep disk last c rest).1 := by
  unfold textStep
  simp only
  split
  · exact (closeGap_synced (flushStartTail_synced h)).of_eq rfl rfl rfl rfl
  · split
    · exact (flushStartTail_synced h).of_eq rfl rfl rfl rfl
    · split
      · simp only
        split
        · exact h.of_eq rfl rfl rfl rfl
        · exact h
      · split
        · exact feedDsmlByte_synced h disk c
        · exact normalByte_synced h disk c

theorem finishText_synced : Synced s.finishText := by
  have hflushed := closeGap_synced (flushStartTail_synced h)
  have hfinished : Synced s.flushStartTail.closeGap.finishDsml := by
    unfold finishDsml
    split
    · split
      · exact finishIgnoredDsml_synced _
      · exact synced_of_inactive hflushed.settled rfl
    · exact hflushed
  unfold finishText reportThinking
  split
  · exact finishIgnoredDsml_synced _
  · exact hfinished

end

end StreamRenderer

theorem Streamed.synced {disk : Disk} {replay inThink : Bool} {s : StreamRenderer} {rest : Bytes}
    (h : Streamed disk replay inThink s rest) : Synced s := by
  induction h with
  | init => exact synced_of_inactive empty_settled rfl
  | text h text ih => exact ih.of_eq rfl rfl rfl rfl
  | step h last ih => exact StreamRenderer.textStep_synced ih disk last _ _
  | finish h ih => exact StreamRenderer.finishText_synced ih

/-! ### The check -/

/-- The edit tool gets from the path and the old text to a region of the file. -/
def Determines (disk : Disk) (call : ToolCall) : Prop :=
  ∃ path old data span, toolArgValue call (str "path") = some path ∧ path ≠ [] ∧
    toolArgValue call (str "old") = some old ∧ old ≠ [] ∧
    readFileBytes path (disk path).1 (disk path).2 = .ok data ∧
    editFindOldSpan data old = .ok span

/-- The check is the search of the edit tool, but for a path that is missing or empty. -/
theorem preflightEditOld_eq_none_iff {disk : Disk} {call : ToolCall} {path : Bytes}
    (hpath : toolArgValue call (str "path") = some path) :
    preflightEditOld disk call = none ↔ path = [] ∨ Determines disk call := by
  have hdetermines : Determines disk call ↔ path ≠ [] ∧
      ∃ old data span, toolArgValue call (str "old") = some old ∧ old ≠ [] ∧
        readFileBytes path (disk path).1 (disk path).2 = .ok data ∧
        editFindOldSpan data old = .ok span := by
    constructor
    · rintro ⟨path', old, data, span, hpath', hne, hold, hread⟩
      obtain rfl := some.inj (hpath.symm.trans hpath')
      exact ⟨hne, old, data, span, hold, hread⟩
    · rintro ⟨hne, old, data, span, hold, hread⟩
      exact ⟨path, old, data, span, hpath, hne, hold, hread⟩
  rw [hdetermines]
  unfold preflightEditOld
  rw [hpath]
  cases path with
  | nil => simp
  | cons c path =>
    cases hold : toolArgValue call (str "old") with
    | none => simp
    | some old =>
      cases old with
      | nil => simp
      | cons d old =>
        cases hread : readFileBytes (c :: path) (disk (c :: path)).1 (disk (c :: path)).2 with
        | error e => simp [hread]
        | ok data =>
          cases hspan : editFindOldSpan data (d :: old) with
          | error e => simp [hread, hspan]
          | ok span => simp [hread, hspan]

/-- The byte ends the old text of an edit that has its path, and the stream is no replay. -/
structure ClosesOld (s : StreamRenderer) (c : UInt8) (path : Bytes) : Prop where
  live : s.replay = false
  active : s.dsmlActive = true
  allowed : s.dsmlIgnored = false
  value : s.parser.state = .paramValue
  param : s.parser.paramName = some (str "old")
  edit : s.parser.current.name = some (str "edit")
  path : toolArgValue s.parser.current (str "path") = some path
  closed : (s.parser.feed c).state ≠ .paramValue

namespace StreamRenderer

theorem preflightClosedParam_flag {disk : Disk} {s : StreamRenderer} (hlive : s.replay = false)
    (hallowed : s.dsmlIgnored = false) (hactive : s.viz.paramActive = true)
    (hparam : s.viz.paramName = str "old") (hedit : s.parser.current.name = some (str "edit")) :
    (s.preflightClosedParam disk).toolPreflightError =
      (s.toolPreflightError || (preflightEditOld disk s.parser.current).isSome) := by
  unfold preflightClosedParam
  cases hflag : s.toolPreflightError with
  | true => simp [hflag]
  | false =>
    rw [if_neg (by simp [hlive, hallowed]), if_neg (by simp [hactive, hparam]),
      if_neg (not_not.mpr hedit)]
    cases hpreflight : preflightEditOld disk s.parser.current with
    | none => simpa using hflag
    | some e => rfl

theorem endDsml_flag (s : StreamRenderer) :
    s.endDsml.toolPreflightError = s.toolPreflightError := by
  unfold endDsml finishIgnoredDsml
  repeat' split
  all_goals rfl

/-- Where the byte ends the parameter, the check runs if the visualiser is still in it. -/
theorem feedDsmlByte_flag {s : StreamRenderer} (hsynced : Synced s) {disk : Disk} {c : UInt8}
    {path : Bytes} (h : ClosesOld s c path) :
    (s.viz.Completes c ∧ (s.feedDsmlByte disk c).toolPreflightError = s.toolPreflightError) ∨
      (¬ s.viz.Completes c ∧ (s.feedDsmlByte disk c).toolPreflightError =
        (s.toolPreflightError || (preflightEditOld disk (s.parser.feed c).current).isSome)) := by
  rcases DsmlParser.feed_param hsynced.settled h.value c with
    ⟨-, hfeed⟩ | ⟨i, n, hzero, -, hfeed⟩
  · refine absurd ?_ h.closed
    rw [hfeed]
    exact h.value
  · obtain ⟨hactive, ⟨name, hname, hviz⟩, -⟩ :=
      ((hsynced.viz h.active h.allowed).param h.value).resolve_left hzero
    obtain rfl := some.inj (h.param.symm.trans hname)
    have hprojected : (s.parsed c).projected disk c (!s.dsmlIgnored && s.viz.paramActive) =
        (s.parsed c).vizByte disk c := by
      have hallowed' : (s.parsed c).dsmlIgnored = false := h.allowed
      have hactive' : (s.parsed c).viz.paramActive = true := hactive
      unfold projected
      rw [if_neg (by rw [hallowed']; decide), toolEvents_eq_self (.inl hactive'), hactive,
        h.allowed, if_pos (by decide)]
    have hfed : (s.feedDsmlByte disk c).toolPreflightError =
        ((s.parsed c).vizByte disk c).toolPreflightError := by
      unfold feedDsmlByte
      rw [endDsml_flag, hprojected]
    rw [hfed]
    unfold vizByte
    rcases s.viz.paramValueByte_cases c with
      ⟨hcomplete, hclosed⟩ | ⟨hmissed, hstill, hkept, -⟩
    · refine .inl ⟨hcomplete, ?_⟩
      rw [if_neg]
      · rfl
      · rintro ⟨-, hstill⟩
        exact absurd (hclosed.symm.trans hstill) nofun
    · refine .inr ⟨hmissed, ?_⟩
      rw [if_pos ⟨h.closed, hstill.trans hactive⟩]
      have hedit : (s.parser.feed c).current.name = some (str "edit") := by
        rw [hfeed]
        exact h.edit
      exact @preflightClosedParam_flag disk
        { s.parsed c with viz := (s.parsed c).viz.paramValueByte c } h.live h.allowed
        (hstill.trans hactive) ((hkept.trans hviz).trans (by decide)) hedit

theorem closesOld_path {s : StreamRenderer} (hsynced : Synced s) {c : UInt8} {path : Bytes}
    (h : ClosesOld s c path) : toolArgValue (s.parser.feed c).current (str "path") = some path := by
  have hpath := h.path
  rcases DsmlParser.feed_param hsynced.settled h.value c with
    ⟨-, hfeed⟩ | ⟨i, n, -, -, hfeed⟩
  · rw [hfeed]
    exact hpath
  · rw [hfeed]
    unfold toolArgValue DsmlParser.closeParam DsmlParser.rawAppend at *
    obtain ⟨arg, hfind, rfl⟩ := map_eq_some_iff.mp hpath
    rw [find?_append, hfind]
    rfl

/-- At the byte that closes the old text of an edit the error is set exactly where the tool would
find no region, if and only if the tool finds one, or the path is not empty, there is no error yet
and the visualiser misses the closing tag. -/
theorem preflight_exact {disk : Disk} {replay inThink : Bool} {s : StreamRenderer} {c : UInt8}
    {rest path : Bytes} (h : Streamed disk replay inThink s (c :: rest))
    (hcloses : ClosesOld s c path) :
    ((s.toolPreflightError = false ∧ (s.feedDsmlByte disk c).toolPreflightError = true) ↔
        ¬ Determines disk (s.parser.feed c).current) ↔
      (Determines disk (s.parser.feed c).current ∨
        (path ≠ [] ∧ s.toolPreflightError = false ∧ ¬ s.viz.Completes c)) := by
  have hcheck := @preflightEditOld_eq_none_iff disk _ _ (closesOld_path h.synced hcloses)
  rcases @feedDsmlByte_flag s h.synced disk c path hcloses with
    ⟨hcomplete, hflag⟩ | ⟨hmissed, hflag⟩
  · rw [hflag]
    cases s.toolPreflightError <;> simp [hcomplete]
  · rw [hflag]
    cases hset : s.toolPreflightError with
    | true => simp
    | false =>
      rw [Bool.false_or, isSome_iff_ne_none]
      tauto

/-! ### Two streams -/

instance (s : StreamRenderer) (c : UInt8) (path : Bytes) : Decidable (ClosesOld s c path) :=
  decidable_of_iff
    (s.replay = false ∧ s.dsmlActive = true ∧ s.dsmlIgnored = false ∧
      s.parser.state = .paramValue ∧ s.parser.paramName = some (str "old") ∧
      s.parser.current.name = some (str "edit") ∧
      toolArgValue s.parser.current (str "path") = some path ∧
      (s.parser.feed c).state ≠ .paramValue)
    ⟨fun ⟨h1, h2, h3, h4, h5, h6, h7, h8⟩ => ⟨h1, h2, h3, h4, h5, h6, h7, h8⟩,
      fun ⟨h1, h2, h3, h4, h5, h6, h7, h8⟩ => ⟨h1, h2, h3, h4, h5, h6, h7, h8⟩⟩

/-- Passes of the loop of `agent_stream_text`. -/
def passes (disk : Disk) : ℕ → StreamRenderer × Bytes → StreamRenderer × Bytes
  | 0, p => p
  | _ + 1, (s, []) => (s, [])
  | n + 1, (s, c :: rest) => passes disk n (s.textStep disk false c rest)

theorem streamed_passes {disk : Disk} {replay inThink : Bool} {p : StreamRenderer × Bytes}
    (h : Streamed disk replay inThink p.1 p.2) (n : ℕ) :
    Streamed disk replay inThink (passes disk n p).1 (passes disk n p).2 := by
  induction n generalizing p with
  | zero => exact h
  | succ n ih =>
    obtain ⟨s, rest⟩ := p
    cases rest with
    | nil => exact h
    | cons c rest => exact ih (p := s.textStep disk false c rest) (h.step false)

/-- An edit of the file `f`, up to its old text. -/
def editText : Bytes :=
  str "<｜DSML｜tool_calls><｜DSML｜invoke name=\"edit\">" ++
    str "<｜DSML｜parameter name=\"path\">f</｜DSML｜parameter>" ++
    str "<｜DSML｜parameter name=\"old\">"

def abDisk : Disk := fun _ => (str "ab", ⟨none, false, none⟩)

def atOld : StreamRenderer :=
  { StreamRenderer.init false false with
    parser := ⟨.paramValue, [], editText, editText.length,
      ⟨some (str "edit"), [(str "path", str "f")]⟩, some (str "old"), editText.length, [], []⟩
    viz := ⟨true, true, str "old", []⟩
    dsmlActive := true }

/-- In front of the last byte of the tag behind an old text. -/
def atClose (old : Bytes) : StreamRenderer × Bytes :=
  passes abDisk (old ++ str "</｜DSML｜parameter").length (atOld, old ++ str "</｜DSML｜parameter>")

theorem streamed_atClose (old : Bytes) :
    Streamed abDisk false false (atClose old).1 (atClose old).2 := by
  have hopened : passes abDisk editText.length (.init false false, editText) = (atOld, []) := by
    decide +kernel
  have hstream := streamed_passes (p := (.init false false, editText))
    (Streamed.init.text editText : Streamed abDisk false false _ _) editText.length
  rw [hopened] at hstream
  exact streamed_passes (p := (atOld, old ++ str "</｜DSML｜parameter>")) (hstream.text _) _

/-- An old text with an open bracket at its end hides the closing tag from the visualiser, and the
edit is stopped. -/
theorem preflight_exact_missed :
    ((atClose (str "x<")).1.toolPreflightError = false ∧
        ((atClose (str "x<")).1.feedDsmlByte abDisk 0x3e).toolPreflightError = true) ↔
      ¬ Determines abDisk ((atClose (str "x<")).1.parser.feed 0x3e).current := by
  have hstream := streamed_atClose (str "x<")
  have hrest : (atClose (str "x<")).2 = [0x3e] := by decide +kernel
  rw [hrest] at hstream
  have hcloses : ClosesOld (atClose (str "x<")).1 0x3e (str "f") := by decide +kernel
  have hflag : (atClose (str "x<")).1.toolPreflightError = false := by decide +kernel
  have hmissed : ¬ (atClose (str "x<")).1.viz.Completes 0x3e := by
    unfold Visualizer.Completes
    decide +kernel
  exact (preflight_exact hstream hcloses).mpr (.inr ⟨by decide, hflag, hmissed⟩)

/-- The old text does not occur in the file, and the call is not stopped. -/
theorem preflight_skipped : ¬ ∀ (disk : Disk) (replay inThink : Bool) (s : StreamRenderer)
    (c : UInt8) (rest path : Bytes), Streamed disk replay inThink s (c :: rest) →
      ClosesOld s c path →
      ((s.toolPreflightError = false ∧ (s.feedDsmlByte disk c).toolPreflightError = true) ↔
        ¬ Determines disk (s.parser.feed c).current) := by
  intro hclaim
  have hstream := streamed_atClose (str "x")
  have hrest : (atClose (str "x")).2 = [0x3e] := by decide +kernel
  rw [hrest] at hstream
  have hcloses : ClosesOld (atClose (str "x")).1 0x3e (str "f") := by decide +kernel
  have hset : ¬ ((atClose (str "x")).1.feedDsmlByte abDisk 0x3e).toolPreflightError = true := by
    decide +kernel
  have hrefused :
      preflightEditOld abDisk ((atClose (str "x")).1.parser.feed 0x3e).current ≠ none := by
    decide +kernel
  have hpath := closesOld_path hstream.synced hcloses
  refine hset (((hclaim _ _ _ _ _ _ _ hstream hcloses).mpr fun hdetermines => ?_).2)
  exact hrefused ((preflightEditOld_eq_none_iff hpath).mpr (.inr hdetermines))

end StreamRenderer

end Ds4Studio.Agent
