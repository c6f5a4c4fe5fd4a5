import Ds4Studio.Files.Read
import Ds4Studio.Lib.Sha1
import Mathlib.Data.List.Chain
import Mathlib.Data.List.DropRight

/-!
What a tool call is compared by: the range that is read, or a command without the filters that only
hide noise and with single blanks. The text is kept in 128 bytes, without the name of the tool.
-/

namespace Ds4Studio.Agent

open Bytes Files List Option

/-! ### The fingerprint -/

/-- `AGENT_LOOP_GUARD_FINGERPRINT_SIZE` -/
def fingerprintSize : ℕ := 128

/-- The buffer of a command. -/
def commandBuffer : ℕ := 256

/-- The filters, with the bytes of them that are compared. -/
def noiseFilters : List (Bytes × ℕ) :=
  [(str "| cat -A", 8), (str "| awk 'NF'", 9), (str "| grep -v '^$'", 13),
    (str "| grep -v ^''$", 13), (str "| wc -l", 7)]

def isNoise (s : Bytes) : Bool := noiseFilters.any fun f => decide (f.1.take f.2 <+: s)

/-- Up to the next pipe or the next line. -/
def skipStage (s : Bytes) : Bytes := s.dropWhile fun c => c ≠ 0x7c && c ≠ 0x0a

/-- The loop of `agent_fingerprint_command`, with at most as many passes as given. -/
def fingerprintLoop : ℕ → Bytes → Bytes → Bytes
  | 0, buf, _ => buf
  | _, buf, [] => buf
  | passes + 1, buf, c :: rest =>
      if commandBuffer - 1 ≤ buf.length then buf
      else if isNoise (c :: rest) then fingerprintLoop passes buf (skipStage rest)
      else if isSpace c then
        fingerprintLoop passes (if buf.getLast? = some 0x20 then buf else buf ++ [0x20])
          (skipWs rest)
      else fingerprintLoop passes (buf ++ [c]) rest

def trimEnd (s : Bytes) : Bytes := s.rdropWhile isSpace

/-- `agent_fingerprint_command` -/
def fingerprintCommand (cmd : Bytes) : Bytes :=
  (trimEnd (fingerprintLoop cmd.length [] cmd)).take (fingerprintSize - 1)

/-- The tools whose calls are compared by a command. -/
inductive Tool where
  | bash | search | grep | find
deriving DecidableEq

/-- The command of a call. -/
def commandOf (call : ToolCall) : Option (Tool × Bytes) :=
  let argument (tool : Tool) (name : String) : Option (Tool × Bytes) :=
    (toolArgValue call (str name)).map fun command => (tool, command)
  if call.name = some (str "bash") then argument .bash "command"
  else if call.name = some (str "search") then argument .search "query"
  else if call.name = some (str "grep") then argument .grep "command"
  else if call.name = some (str "find") then argument .find "command"
  else none

/-- The lines of a file that a call asks for, and how they are shown. -/
structure Range where
  start : ℕ
  maxLines : ℕ
  whole : Bool
  raw : Bool
deriving DecidableEq

/-- The number of lines does not matter where the whole file is read. -/
def rangeOf (call : ToolCall) : Range :=
  let whole := parseBoolDefault (toolArgValue call (str "whole")) false
  let maxLines :=
    parseIntDefault (toolArgValue call (str "max_lines")) agentReadDefaultLines 1 intMax
  { start := (parseIntDefault (toolArgValue call (str "start_line")) 1 1 intMax).toNat
    maxLines := if whole then 0 else maxLines.toNat
    whole := whole
    raw := parseBoolDefault (toolArgValue call (str "raw")) false }

def readFingerprint (path : Bytes) (range : Range) : Bytes :=
  str "read|p=" ++ Sha1.sha1BytesHex path ++ str "|s=" ++ int range.start ++ str "|n=" ++
    int range.maxLines ++ str "|w=" ++ int (if range.whole then 1 else 0) ++ str "|r=" ++
    int (if range.raw then 1 else 0)

/-- `agent_loop_guard_fingerprint_call` -/
def fingerprintCall (call : ToolCall) : Option Bytes :=
  if call.name = some (str "read") then
    match toolArgValue call (str "path") with
    | none | some [] => none
    | some path =>
        let text := readFingerprint path (rangeOf call)
        if fingerprintSize ≤ text.length then none else some text
  else
    match commandOf call with
    | none | some (_, []) => none
    | some (_, command) =>
        let text := fingerprintCommand command
        if text = [] then none else some text

/-! ### What a call observes -/

/-- White space within a line. -/
def isLineBlank (c : UInt8) : Bool := isSpace c && c ≠ 0x0a

/-- The end of a stage of a pipeline. -/
def stageEnds (s : Bytes) : Bool := s = [] || s.head? = some 0x7c || s.head? = some 0x0a

/-- What stands behind a stage that is one of the filters and nothing else. -/
def noiseStage (s : Bytes) : Option Bytes :=
  (noiseFilters.find? fun f => decide (f.1 <+: s)).bind fun f =>
    let tail := (s.drop f.1.length).dropWhile isLineBlank
    if stageEnds tail then some tail else none

theorem noiseFilters_cons : ∀ f ∈ noiseFilters, ∃ rest, f.1 = 0x7c :: rest ∧
    ∀ c ∈ rest, c ≠ 0x7c ∧ c ≠ 0x0a := by
  intro f hf
  have hform : f.1 = 0x7c :: f.1.tail ∧
      f.1.tail.all (fun c => decide (c ≠ 0x7c ∧ c ≠ 0x0a)) = true := by
    revert f
    decide
  exact ⟨f.1.tail, hform.1, forall_of_all hform.2⟩

variable {s tail : Bytes}

/-- A stage that is removed is a filter, blanks, and the end of a stage. -/
theorem noiseStage_split (h : noiseStage s = some tail) :
    ∃ f ∈ noiseFilters, ∃ blanks, s = f.1 ++ blanks ++ tail ∧ (∀ c ∈ blanks, isLineBlank c = true) ∧
      stageEnds tail = true := by
  obtain ⟨f, hf, hends⟩ := bind_eq_some_iff.mp h
  obtain ⟨rest, hrest⟩ : f.1 <+: s := by simpa using find?_some hf
  dsimp only at hends
  split at hends
  case isFalse => exact absurd hends nofun
  case isTrue hend =>
    rw [some.inj hends] at hend
    rw [← hrest, drop_left, some.injEq] at hends
    refine ⟨f, mem_of_find?_eq_some hf, rest.takeWhile isLineBlank, ?_,
      fun c hc => mem_takeWhile_imp hc, hend⟩
    rw [← hrest, ← hends, append_assoc, takeWhile_append_dropWhile]

theorem length_of_noiseStage (h : noiseStage s = some tail) : tail.length < s.length := by
  obtain ⟨f, hf, blanks, rfl, -⟩ := noiseStage_split h
  obtain ⟨rest, hrest, -⟩ := noiseFilters_cons f hf
  rw [hrest]
  simp only [length_append, length_cons]
  omega

/-- A command without the stages that only hide noise. -/
def removeFilters (s : Bytes) : Bytes :=
  match s with
  | [] => []
  | c :: rest =>
      match _hstage : noiseStage (c :: rest) with
      | some tail => removeFilters tail
      | none => c :: removeFilters rest
termination_by s.length
decreasing_by
  · exact length_of_noiseStage _hstage
  · exact Nat.lt_succ_self _

/-- Each run of white space becomes one blank, and none where a blank stands in front. -/
def collapse : Bool → Bytes → Bytes
  | _, [] => []
  | blank, c :: rest =>
      if isSpace c then
        if blank then collapse true rest else 0x20 :: collapse true rest
      else c :: collapse false rest

/-- A command without noise filters and with single blanks. -/
def normalForm (cmd : Bytes) : Bytes := trimEnd (collapse false (removeFilters cmd))

/-- What a tracked call observes. -/
inductive Observation where
  | read (path : Bytes) (range : Range)
  | command (tool : Tool) (text : Bytes)
deriving DecidableEq

def observation (call : ToolCall) : Option Observation :=
  if call.name = some (str "read") then
    match toolArgValue call (str "path") with
    | none | some [] => none
    | some path => some (.read path (rangeOf call))
  else
    match commandOf call with
    | none | some (_, []) => none
    | some (tool, command) => some (.command tool (normalForm command))

/-- Where a filter begins, as far as it is compared, it is a stage of its own. -/
def FiltersInFull (cmd : Bytes) : Prop :=
  ∀ s, s <:+ cmd → isNoise s = true → (noiseStage s).isSome = true

/-- The command of a call keeps something, and its filters are stages. -/
def KeptInFull (call : ToolCall) : Prop :=
  ∀ tool command, commandOf call = some (tool, command) → command ≠ [] →
    FiltersInFull command ∧ normalForm command ≠ []

/-- What an observation is compared by. -/
def Observation.label : Observation → Bytes
  | .read path range => readFingerprint path range
  | .command _ text => text.take (fingerprintSize - 1)

/-- Two observations are the same, or the ranges, the digests of the paths or the first 127 bytes of
the commands differ. -/
def Apart : Observation → Observation → Prop
  | .read path range, .read path' range' =>
      range = range' → Sha1.sha1BytesHex path = Sha1.sha1BytesHex path' → path = path'
  | .command tool text, .command tool' text' =>
      text.take (fingerprintSize - 1) = text'.take (fingerprintSize - 1) → tool = tool' ∧ text = text'
  | .read path range, .command _ text | .command _ text, .read path range =>
      text.take (fingerprintSize - 1) ≠ readFingerprint path range

/-! ### The loop removes and collapses -/

theorem isNoise_of_noiseStage (h : noiseStage s = some tail) : isNoise s = true := by
  obtain ⟨f, hf, blanks, rfl, -⟩ := noiseStage_split h
  refine List.any_eq_true.mpr ⟨f, hf, decide_eq_true ?_⟩
  rw [append_assoc]
  exact ( take_prefix _ _).trans (prefix_append _ _)

variable {c : UInt8}

theorem isLineBlank_imp (h : isLineBlank c = true) : c ≠ 0x7c ∧ c ≠ 0x0a := by
  constructor <;> rintro rfl <;> exact absurd h (by decide)

variable {rest : Bytes}

theorem skipStage_of_noiseStage (h : noiseStage (c :: rest) = some tail) :
    skipStage rest = tail := by
  obtain ⟨f, hf, blanks, hsplit, hblanks, hend⟩ := noiseStage_split h
  obtain ⟨letters, hletters, hinner⟩ := noiseFilters_cons f hf
  rw [hletters, cons_append, cons_append, cons.injEq] at hsplit
  have hfront : ∀ d ∈ letters ++ blanks, (d ≠ 0x7c && d ≠ 0x0a) = true := by
    intro d hd
    rcases mem_append.mp hd with hd | hd
    · simpa using hinner d hd
    · simpa using isLineBlank_imp (hblanks d hd)
  rw [hsplit.2, skipStage, dropWhile_append_of_pos hfront]
  cases tail with
  | nil => rfl
  | cons d tail =>
    have hd : (d ≠ 0x7c && d ≠ 0x0a) = false := by
      have hd' : d = 0x7c ∨ d = 0x0a := by simpa [stageEnds] using hend
      rcases hd' with rfl | rfl <;> rfl
    rw [dropWhile_cons, hd]
    rfl

theorem removeFilters_of_noiseStage (h : noiseStage s = some tail) :
    removeFilters s = removeFilters tail := by
  cases s with
  | nil => exact absurd (length_of_noiseStage h) (Nat.not_lt_zero _)
  | cons c rest =>
    rw [removeFilters]
    split
    case h_1 _ htail => rw [some.inj (htail.symm.trans h)]
    case h_2 hnone => exact absurd (hnone.symm.trans h) nofun

theorem removeFilters_cons (h : noiseStage (c :: rest) = none) :
    removeFilters (c :: rest) = c :: removeFilters rest := by
  rw [removeFilters]
  split
  case h_1 _ htail => exact absurd (htail.symm.trans h) nofun
  case h_2 => rfl

theorem noiseStage_of_not_isNoise (h : isNoise s = false) : noiseStage s = none := by
  cases hstage : noiseStage s with
  | none => rfl
  | some tail => exact absurd ((isNoise_of_noiseStage hstage).symm.trans h) nofun

theorem noiseStage_of_isSpace (h : isSpace c = true) : noiseStage (c :: rest) = none := by
  cases hstage : noiseStage (c :: rest) with
  | none => rfl
  | some tail =>
    obtain ⟨f, hf, blanks, hsplit, -⟩ := noiseStage_split hstage
    obtain ⟨letters, hletters, -⟩ := noiseFilters_cons f hf
    rw [hletters, cons_append, cons_append, cons.injEq] at hsplit
    rw [hsplit.1] at h
    exact absurd h (by decide)

theorem collapse_isSpace (h : isSpace c = true) (s : Bytes) :
    collapse true (c :: s) = collapse true s := by
  rw [collapse, if_pos h, if_pos rfl]

theorem collapse_skipWs (s : Bytes) :
    collapse true (removeFilters s) = collapse true (removeFilters (skipWs s)) := by
  induction s with
  | nil => rfl
  | cons c rest ih =>
    cases hc : isSpace c with
    | true =>
      rw [removeFilters_cons (noiseStage_of_isSpace hc), collapse_isSpace hc, ih,
        skipWs_of_space hc]
    | false => rw [skipWs_of_not_space hc]

theorem FiltersInFull.suffix {t : Bytes} (h : FiltersInFull t) (hs : s <:+ t) : FiltersInFull s :=
  fun u hu => h u (hu.trans hs)

/-- The loop writes the collapsed text of what is left, as far as the buffer goes. -/
theorem fingerprintLoop_eq {passes : ℕ} {buf : Bytes} (hpasses : s.length ≤ passes)
    (hfull : FiltersInFull s) (hbuf : buf.length ≤ commandBuffer - 1) :
    fingerprintLoop passes buf s =
      (buf ++ collapse (buf.getLast? = some 0x20) (removeFilters s)).take (commandBuffer - 1) := by
  have hnil : ∀ buf : Bytes, buf.length ≤ commandBuffer - 1 → buf =
      (buf ++ collapse (buf.getLast? = some 0x20) (removeFilters [])).take (commandBuffer - 1) := by
    intro buf hbuf
    rw [removeFilters, collapse, append_nil, take_of_length_le hbuf]
  fun_induction fingerprintLoop passes buf s with
  | case1 buf s =>
    rw [eq_nil_of_length_eq_zero (Nat.le_zero.mp hpasses)]
    exact hnil buf hbuf
  | case2 passes buf => exact hnil buf hbuf
  | case3 passes buf c rest hend =>
    rw [← Nat.le_antisymm hbuf hend, take_left]
  | case4 passes buf c rest hroom hnoise ih =>
    obtain ⟨tail, htail⟩ := isSome_iff_exists.mp (hfull _ (suffix_refl _) hnoise)
    have hskip := skipStage_of_noiseStage htail
    have hsuffix : tail <:+ c :: rest := hskip ▸ (dropWhile_suffix _).trans (suffix_cons c rest)
    have hlen := length_of_noiseStage htail
    rw [hskip] at ih ⊢
    rw [ih (by omega) (hfull.suffix hsuffix) hbuf, removeFilters_of_noiseStage htail]
  | case5 passes buf c rest hroom hnoise hspace ih =>
    have hlen := skipWs_length_le rest
    rw [length_cons] at hpasses
    have hsuffix : skipWs rest <:+ c :: rest := (skipWs_suffix rest).trans (suffix_cons c rest)
    rw [removeFilters_cons (noiseStage_of_isSpace hspace)]
    by_cases hlast : buf.getLast? = some 0x20
    · rw [if_pos hlast] at ih ⊢
      rw [ih (by omega) (hfull.suffix hsuffix) hbuf, decide_eq_true hlast, collapse_isSpace hspace,
        collapse_skipWs rest]
    · rw [if_neg hlast] at ih ⊢
      rw [ih (by omega) (hfull.suffix hsuffix) (by simp; omega), decide_eq_false hlast, collapse,
        if_pos hspace, collapse_skipWs rest]
      simp
  | case6 passes buf c rest hroom hnoise hspace ih =>
    rw [length_cons] at hpasses
    have hne : c ≠ 0x20 := by
      rintro rfl
      exact hspace rfl
    rw [ih (by omega) (hfull.suffix (suffix_cons c rest)) (by simp; omega),
      removeFilters_cons (noiseStage_of_not_isNoise (by simpa using hnoise)), collapse, if_neg hspace]
    simp [hne]

/-! ### The end is trimmed -/

/-- No white space stands behind white space. -/
def Collapsed (s : Bytes) : Prop := s.IsChain fun c d => ¬ (isSpace c = true ∧ isSpace d = true)

theorem collapse_collapsed (s : Bytes) : ∀ blank, Collapsed (collapse blank s) ∧
    (blank = true → ∀ c ∈ (collapse blank s).head?, isSpace c = false) := by
  induction s with
  | nil => exact fun blank => ⟨List.IsChain.nil, fun _ => nofun⟩
  | cons c rest ih =>
    intro blank
    rw [collapse]
    split_ifs with hspace hblank
    · exact ⟨(ih true).1, fun _ => (ih true).2 rfl⟩
    · refine ⟨isChain_cons.mpr ⟨fun d hd hboth => ?_, (ih true).1⟩, fun h => absurd h hblank⟩
      rw [(ih true).2 rfl d hd] at hboth
      exact absurd hboth.2 nofun
    · refine ⟨isChain_cons.mpr ⟨fun d _ hboth => hspace hboth.1, (ih false).1⟩, ?_⟩
      rintro - d hd
      rw [head?_cons, mem_some_iff] at hd
      simpa [← hd] using hspace

theorem Collapsed.length_le_trimEnd (h : Collapsed s) : s.length ≤ (trimEnd s).length + 1 := by
  unfold trimEnd
  rcases eq_nil_or_concat s with rfl | ⟨front, c, rfl⟩
  · exact Nat.zero_le _
  · rw [concat_eq_append] at h ⊢
    cases hc : isSpace c with
    | false => rw [rdropWhile_concat_neg _ _ _ (by simp [hc])]; omega
    | true =>
      have hfront : front.rdropWhile isSpace = front := by
        rw [rdropWhile_eq_self_iff]
        intro hne hlast
        exact (isChain_append.mp h).2.2 _ (getLast?_eq_some_getLast hne) c rfl ⟨hlast, hc⟩
      rw [rdropWhile_concat_pos _ _ _ hc, hfront]
      simp

theorem Collapsed.take_trimEnd (h : Collapsed s) {m n : ℕ} (hmn : n < m) :
    (trimEnd (s.take m)).take n = (trimEnd s).take n := by
  rcases Nat.le_total s.length m with hle | hle
  · rw [take_of_length_le hle]
  · have htake : ∀ t, t <+: s → n ≤ t.length → t.take n = s.take n := by
      intro t ht hn
      rw [prefix_iff_eq_take.mp ht, take_take, Nat.min_eq_left hn]
    have hcut : Collapsed (s.take m) := List.IsChain.take h m
    have hlen := hcut.length_le_trimEnd
    have hlen' := h.length_le_trimEnd
    rw [length_take] at hlen
    rw [htake (trimEnd (s.take m))
        (( rdropWhile_prefix isSpace _).trans ( take_prefix m s)) (by omega),
      htake (trimEnd s) ( rdropWhile_prefix isSpace _) (by omega)]

theorem fingerprintCommand_eq {cmd : Bytes} (hfull : FiltersInFull cmd) :
    fingerprintCommand cmd = (normalForm cmd).take (fingerprintSize - 1) := by
  unfold fingerprintCommand normalForm
  rw [fingerprintLoop_eq (Nat.le_refl _) hfull (Nat.zero_le _)]
  exact (collapse_collapsed (removeFilters cmd) false).1.take_trimEnd (by decide)

/-! ### What is compared is what is observed -/

theorem length_readFingerprint (path : Bytes) {range : Range} (hstart : range.start < 10 ^ 10)
    (hmax : range.maxLines < 10 ^ 10) : (readFingerprint path range).length < fingerprintSize := by
  have hbit : ∀ b : Bool, (int (if b then 1 else 0)).length = 1 := by decide
  have hs := int_length_le hstart
  have hn := int_length_le hmax
  have htexts : (str "read|p=").length = 7 ∧ (str "|s=").length = 3 ∧ (str "|n=").length = 3 ∧
      (str "|w=").length = 3 ∧ (str "|r=").length = 3 := by decide
  obtain ⟨h1, h2, h3, h4, h5⟩ := htexts
  simp only [readFingerprint, fingerprintSize, length_append, Sha1.length_sha1BytesHex, hbit,
    h1, h2, h3, h4, h5]
  omega

theorem range_bounds (call : ToolCall) :
    (rangeOf call).start < 10 ^ 10 ∧ (rangeOf call).maxLines < 10 ^ 10 := by
  have hmost : intMax < 10 ^ 10 := by decide
  have hstart := (parseIntDefault_bounds (toolArgValue call (str "start_line"))
    (show (1 : ℤ) ≤ 1 by decide) (show (1 : ℤ) ≤ intMax by decide)).2
  have hmax := (parseIntDefault_bounds (toolArgValue call (str "max_lines"))
    (show (1 : ℤ) ≤ agentReadDefaultLines by decide)
    (show (agentReadDefaultLines : ℤ) ≤ intMax by decide)).2
  unfold rangeOf
  dsimp only
  constructor
  · omega
  · split <;> omega

theorem bar_not_mem_int (n : ℕ) : (0x7c : UInt8) ∉ int n := by
  intro h
  exact absurd (isDigit_of_mem_int h) (by decide)

theorem int_bar_inj {m n : ℕ} {rest' : Bytes} (h : int m ++ 0x7c :: rest = int n ++ 0x7c :: rest') :
    m = n ∧ rest = rest' := by
  have hparts := congrArg (fun s => List.splitOn 0x7c s) h
  simp only [splitOn_append_cons_self_of_not_mem (bar_not_mem_int _), cons.injEq] at hparts
  obtain rfl := int_natCast_injective hparts.1
  simpa using h

theorem int_bit_inj {b b' : Bool} (h : int (if b then 1 else 0) = int (if b' then 1 else 0)) :
    b = b' := by
  revert b b'
  decide

theorem readFingerprint_inj {path path' : Bytes} {range range' : Range}
    (h : readFingerprint path range = readFingerprint path' range') :
    Sha1.sha1BytesHex path = Sha1.sha1BytesHex path' ∧ range = range' := by
  have hs : str "|s=" = [0x7c, 0x73, 0x3d] := by decide
  have hn : str "|n=" = [0x7c, 0x6e, 0x3d] := by decide
  have hw : str "|w=" = [0x7c, 0x77, 0x3d] := by decide
  have hr : str "|r=" = [0x7c, 0x72, 0x3d] := by decide
  simp only [readFingerprint, hs, hn, hw, hr, append_assoc, append_cancel_left_eq,
    cons_append, nil_append] at h
  obtain ⟨hsha, h⟩ := append_inj h rfl
  obtain ⟨hstart, h⟩ := int_bar_inj (@append_cancel_left _ [0x7c, 0x73, 0x3d] _ _ h)
  obtain ⟨hmax, h⟩ := int_bar_inj (@append_cancel_left _ [0x6e, 0x3d] _ _ h)
  obtain ⟨hwhole, h⟩ := append_inj (@append_cancel_left _ [0x77, 0x3d] _ _ h)
    (by cases range.whole <;> cases range'.whole <;> rfl)
  have hraw := @append_cancel_left _ [0x7c, 0x72, 0x3d] _ _ h
  refine ⟨hsha, ?_⟩
  exact Range.mk.injEq .. ▸ ⟨hstart, hmax, int_bit_inj hwhole, int_bit_inj hraw⟩

theorem fingerprintCall_eq {call : ToolCall} (h : KeptInFull call) :
    fingerprintCall call = (observation call).map Observation.label := by
  unfold fingerprintCall observation
  split
  case isTrue =>
    split
    case h_1 => rfl
    case h_2 => rfl
    case h_3 path _ _ =>
      obtain ⟨hstart, hmax⟩ := range_bounds call
      have hlen := length_readFingerprint path hstart hmax
      simp only [if_neg (Nat.not_le.mpr hlen), map_some, Observation.label]
  case isFalse =>
    cases hcommand : commandOf call with
    | none => rfl
    | some command =>
      obtain ⟨tool, command⟩ := command
      cases command with
      | nil => rfl
      | cons c rest =>
        obtain ⟨hfull, hne⟩ := h tool _ hcommand (cons_ne_nil c rest)
        have hfingerprint := fingerprintCommand_eq hfull
        have hkept : (normalForm (c :: rest)).take (fingerprintSize - 1) ≠ [] := by
          simpa [fingerprintSize] using hne
        simp only [hfingerprint, if_neg hkept, map_some, Observation.label]

theorem Apart.label_eq_iff {o o' : Observation} (h : Apart o o') : o.label = o'.label ↔ o = o' := by
  refine ⟨fun hlabel => ?_, fun hsame => hsame ▸ rfl⟩
  cases o with
  | read path range =>
    cases o' with
    | read path' range' =>
      obtain ⟨hsha, rfl⟩ := readFingerprint_inj hlabel
      rw [h rfl hsha]
    | command tool' text' => exact absurd hlabel.symm h
  | command tool text =>
    cases o' with
    | read path' range' => exact absurd hlabel h
    | command tool' text' =>
      obtain ⟨rfl, rfl⟩ := h hlabel
      rfl

end Ds4Studio.Agent
