import Ds4Studio.Lib.CodeUnits
import Ds4Studio.Lib.Splits
import Mathlib.Data.Rat.Floor

/-!
Editing a file: a text that it has is replaced by another one, or some of its lines are. What is
replaced is found by one function and put in by another one that reads `$` in the new text, and a
range of lines is a text of which two numbers are read.
-/

namespace Ds4Studio.Web

open Utf16

/-! ### Splicing -/

/-- `ToIntegerOrInfinity`, from the start of an array with the length on. -/
def relativeIndex (x : Num) (length : ℕ) : ℕ :=
  match x with
  | .nan | .negInf => 0
  | .posInf => length
  | .fin q => if ⌈q⌉ < 0 then ((length : ℤ) + ⌈q⌉).toNat else min ⌊q⌋.toNat length

def deleted (x : Num) (most : ℕ) : ℕ :=
  match x with
  | .nan | .negInf => 0
  | .posInf => most
  | .fin q => min ⌊q⌋.toNat most

/-- `lines.splice(start, deleteCount, ...items)` -/
def splice (lines : List Utf16) (start deleteCount : Num) (items : List Utf16) : List Utf16 :=
  let first := relativeIndex start lines.length
  lines.take first ++ items ++ lines.drop (first + deleted deleteCount (lines.length - first))

theorem relativeIndex_nat {n length : ℕ} (h : n ≤ length) : relativeIndex (.nat n) length = n := by
  have hpos : ¬ (n : ℤ) < 0 := not_lt.mpr (Int.natCast_nonneg n)
  simp only [Num.nat, relativeIndex, Int.ceil_natCast, if_neg hpos, Int.floor_natCast, Int.toNat_natCast]
  exact Nat.min_eq_left h

theorem deleted_nat (n most : ℕ) : deleted (.nat n) most = min n most := by
  simp only [Num.nat, deleted, Int.floor_natCast, Int.toNat_natCast]

theorem deleted_of_le {x : Num} {most : ℕ} (h : (Num.nat most).le x = true) :
    deleted x most = most := by
  cases x with
  | nan | negInf => simp [Num.nat, Num.le] at h
  | posInf => rfl
  | fin q =>
    have hle : (most : ℤ) ≤ ⌊q⌋ := Int.le_floor.mpr (by simpa [Num.nat] using h)
    simp only [deleted]
    omega

/-! ### The tool -/

/-- The decoded text of a file with valid UTF-8. A longer one than a string can hold is not read. -/
structure Contents where
  text : Utf16
  short : text.length ≤ 2 ^ 29 - 24
  wellFormed : WellFormed text

def Contents.lines (file : Contents) : List Utf16 := file.text.splitOn 0x0a

/-- What the tool takes from its surroundings. What it writes is written. -/
structure EditHost where
  doubles : Doubles
  digits : Num → Utf16
  resolveToolPath : Utf16 → Except Utf16 Utf16
  readFile : Utf16 → Option Contents

/-- The arguments, where they have the type that is asked for. -/
structure EditArgs where
  path : Utf16
  old : Option Utf16
  new : Option Utf16
  line : Option Num
  range : Option Utf16

/-- The result, and what the file has if it has been written. -/
structure EditResult where
  content : Utf16
  isError : Bool
  written : Option Utf16

def refuse (content : Utf16) : EditResult := ⟨content, true, none⟩

def wrote (text content : Utf16) : EditResult := ⟨content, false, some (toWellFormed text)⟩

/-- `typeof args.new === "string" ? args.new : ""` -/
def newText (args : EditArgs) : Utf16 := args.new.getD []

/-- `newText === "" ? [] : newText.split("\n")` -/
def newLines (args : EditArgs) : List Utf16 :=
  if newText args = [] then [] else (newText args).splitOn 0x0a

/-- `startLine` and `endLine` -/
def lineBounds (host : EditHost) (args : EditArgs) : Option (Num × Num) :=
  match args.line, args.range with
  | some line, _ => some (line, line)
  | none, some range =>
      let parts := range.splitOn 0x3a
      let startLine := toNumber host.doubles (parts.getD 0 [])
      let second := match parts[1]? with
        | some part => toNumber host.doubles part
        | none => .nan
      some (startLine, second.orElse startLine)
  | none, none => none

/-- `startLine < 1 || endLine < startLine || startLine > lines.length` -/
def refused (startLine endLine : Num) (lines : ℕ) : Bool :=
  startLine.lt (.nat 1) || endLine.lt startLine || (Num.nat lines).lt startLine

/-- The lines with those between the bounds replaced. -/
def editedLines (d : Doubles) (startLine endLine : Num) (file : Contents) (args : EditArgs) :
    List Utf16 :=
  splice file.lines (d.sub startLine (.nat 1)) (d.add (d.sub endLine startLine) (.nat 1))
    (newLines args)

def join (lines : List Utf16) : Utf16 := [0x0a].intercalate lines

/-- A text is replaced. -/
def editText (host : EditHost) (resolved : Utf16) (file : Contents) (oldText : Utf16)
    (args : EditArgs) : EditResult :=
  let occurrences : ℤ := (split oldText file.text).length - 1
  if occurrences = 0 then refuse (ascii "edit: old text not found in file")
  else if 1 < occurrences then
    refuse (ascii "edit: old text found " ++ host.digits (.fin occurrences) ++
      ascii " times; must match exactly once")
  else
    wrote (replace oldText (newText args) file.text)
      (ascii "Edited " ++ resolved ++ ascii ": replaced 1 occurrence")

/-- Lines are replaced. -/
def editLines (host : EditHost) (resolved : Utf16) (file : Contents) (args : EditArgs) :
    EditResult :=
  if args.range = some (ascii "all") then
    wrote (newText args) (ascii "Edited " ++ resolved ++ ascii ": full file rewrite")
  else
    match lineBounds host args with
    | none => refuse (ascii "edit: specify old/new, line, or range")
    | some (startLine, endLine) =>
        if refused startLine endLine file.lines.length then
          refuse (ascii "edit: invalid range " ++ host.digits startLine ++ ascii ":" ++
            host.digits endLine ++ ascii " (file has " ++ host.digits (.nat file.lines.length) ++
            ascii " lines)")
        else
          wrote (join (editedLines host.doubles startLine endLine file args))
            (ascii "Edited " ++ resolved ++ ascii ": replaced lines " ++ host.digits startLine ++
              ascii "-" ++ host.digits endLine ++ ascii " with " ++
              host.digits (.nat (newLines args).length) ++ ascii " line(s)")

/-- `toolEdit`, as `executeTool` runs it -/
def toolEdit (host : EditHost) (args : EditArgs) : EditResult :=
  if args.path = [] then refuse (ascii "edit: path is required")
  else
    match host.resolveToolPath args.path with
    | .error message => refuse (ascii "Tool edit error: " ++ message)
    | .ok resolved =>
        match host.readFile resolved with
        | none => refuse (ascii "edit: file not found: " ++ resolved)
        | some file =>
            match args.old with
            | some oldText => editText host resolved file oldText args
            | none => editLines host resolved file args

/-! ### What an edit is for -/

/-- The lines that the arguments name, as whole numbers. -/
inductive Selects (d : Doubles) (args : EditArgs) (lines : ℕ) : ℕ → ℕ → Prop
  | all (h : args.range = some (ascii "all")) : Selects d args lines 1 lines
  | line {n : ℕ} (h : args.line = some (.nat n)) (hrange : args.range ≠ some (ascii "all")) :
      Selects d args lines n n
  | one {range : Utf16} {n : ℕ} (h : args.range = some range) (hline : args.line = none)
      (hall : range ≠ ascii "all") (hcolon : 0x3a ∉ range) (hstart : toNumber d range = .nat n) :
      Selects d args lines n n
  | range {start stop : Utf16} {m n : ℕ} (h : args.range = some (start ++ 0x3a :: stop))
      (hline : args.line = none) (hstart : 0x3a ∉ start) (hstop : 0x3a ∉ stop)
      (hm : toNumber d start = .nat m) (hn : toNumber d stop = .nat n) : Selects d args lines m n

/-- The text that the file is meant to have. -/
inductive Intended (d : Doubles) (file : Contents) (args : EditArgs) : Utf16 → Prop
  | text {old new before after : Utf16} (hold : args.old = some old) (hnew : args.new = some new)
      (hne : old ≠ []) (htext : file.text = before ++ old ++ after)
      (honly : Search.OnlyAt old file.text before.length) :
      Intended d file args (before ++ new ++ after)
  | lines {start stop : ℕ} (hold : args.old = none)
      (hselects : Selects d args file.lines.length start stop) (hstart : 1 ≤ start)
      (hle : start ≤ stop) (hlines : start ≤ file.lines.length) :
      Intended d file args
        (join (file.lines.take (start - 1) ++ newLines args ++ file.lines.drop stop))

/-- The file that the arguments name. -/
def Opened (host : EditHost) (args : EditArgs) (file : Contents) : Prop :=
  args.path ≠ [] ∧ ∃ resolved, host.resolveToolPath args.path = .ok resolved ∧
    host.readFile resolved = some file

/-- The result is a success with a text that is meant, or there is none and nothing is written. -/
def Meeting (intended : Utf16 → Prop) (result : EditResult) : Prop :=
  (∃ text, intended text ∧ result.isError = false ∧ result.written = some text) ∨
    (∀ text, ¬ intended text) ∧ result.isError = true ∧ result.written = none

def Meets (host : EditHost) (args : EditArgs) : Prop :=
  Meeting (fun text => ∃ file, Opened host args file ∧ Intended host.doubles file args text)
    (toolEdit host args)

/-- A text to be replaced is empty in a file with another length than 0 or 2, does not occur, occurs
twice without overlap, or occurs once with a new text that stands for itself. -/
def TextExact (file : Contents) (old : Utf16) (args : EditArgs) : Prop :=
  if old = [] then file.text.length ≠ 0 ∧ file.text.length ≠ 2
  else
    ¬ old <:+: file.text ∨
    (∃ i j, i + old.length ≤ j ∧ old <+: file.text.drop i ∧ old <+: file.text.drop j) ∨
    ∃ new before after, args.new = some new ∧ file.text = before ++ old ++ after ∧
      Search.OnlyAt old file.text before.length ∧ getSubstitution old before after new = new ∧
      WellFormed (before ++ new ++ after)

/-- Bounds that are accepted are whole numbers as they are given, and no half of a surrogate pair is
put in. -/
def LinesExact (host : EditHost) (file : Contents) (args : EditArgs) : Prop :=
  if args.range = some (ascii "all") then WellFormed (newText args)
  else
    ∀ bounds, lineBounds host args = some bounds →
      refused bounds.1 bounds.2 file.lines.length = false →
      ∃ start stop, Selects host.doubles args file.lines.length start stop ∧ start ≤ stop ∧
        WellFormed (join (file.lines.take (start - 1) ++ newLines args ++ file.lines.drop stop))

def EditExact (host : EditHost) (file : Contents) (args : EditArgs) : Prop :=
  match args.old with
  | some old => TextExact file old args
  | none => LinesExact host file args

theorem meeting_refuse {intended : Utf16 → Prop} (content : Utf16) :
    Meeting intended (refuse content) ↔ ∀ text, ¬ intended text := by
  simp [Meeting, refuse]

theorem meeting_wrote {intended : Utf16 → Prop} (text content : Utf16) :
    Meeting intended (wrote text content) ↔ intended (toWellFormed text) := by
  simp [Meeting, wrote]

/-! ### A text is replaced -/

section Text

variable {d : Doubles} {file : Contents} {args : EditArgs} {old : Utf16}

theorem Intended.of_old {text : Utf16} (hold : args.old = some old)
    (h : Intended d file args text) :
    ∃ new before after, args.new = some new ∧ old ≠ [] ∧ file.text = before ++ old ++ after ∧
      Search.OnlyAt old file.text before.length ∧ text = before ++ new ++ after := by
  cases h with
  | @text old' new before after hold' hnew hne htext honly =>
    obtain rfl : old' = old := Option.some.inj (hold'.symm.trans hold)
    exact ⟨new, before, after, hnew, hne, htext, honly, rfl⟩
  | lines hold' => exact absurd (hold'.symm.trans hold) nofun

theorem not_intended_nil (hold : args.old = some []) (text : Utf16) :
    ¬ Intended d file args text := by
  intro h
  obtain ⟨-, -, -, -, hne, -⟩ := h.of_old hold
  exact hne rfl

variable {host : EditHost} {resolved : Utf16}

theorem editText_absent (hold : args.old = some old) (hne : old ≠ [])
    (hcut : Search.cut old file.text = none) :
    Meeting (Intended d file args) (editText host resolved file old args) ↔
      TextExact file old args := by
  have habsent := (Search.cut_eq_none_iff old file.text).mp hcut
  have hcount := length_split_of_cut_none hne hcut
  have hresult : editText host resolved file old args =
      refuse (ascii "edit: old text not found in file") := by
    simp [editText, hcount]
  rw [hresult, meeting_refuse, TextExact, if_neg hne]
  refine ⟨fun _ => .inl habsent, fun _ text htext => habsent ?_⟩
  obtain ⟨new, before, after, -, -, hsplit, -⟩ := htext.of_old hold
  exact ⟨before, after, hsplit.symm⟩

theorem editText_once {before after : Utf16} (hold : args.old = some old) (hne : old ≠ [])
    (hcut : Search.cut old file.text = some (before, after))
    (hagain : Search.cut old after = none) :
    Meeting (Intended d file args) (editText host resolved file old args) ↔
      TextExact file old args := by
  have hcount := length_split_of_cut_once hne hcut hagain
  have hresult : editText host resolved file old args =
      wrote (replace old (newText args) file.text)
        (ascii "Edited " ++ resolved ++ ascii ": replaced 1 occurrence") := by
    simp [editText, hcount]
  have hreplace : replace old (newText args) file.text =
      before ++ getSubstitution old before after (newText args) ++ after := by
    simp only [replace, hcut]
  rw [hresult, meeting_wrote, hreplace, TextExact, if_neg hne]
  constructor
  · intro hintended
    obtain ⟨new, before', after', hnew, -, hsplit, honly, htext⟩ := hintended.of_old hold
    obtain ⟨rfl, rfl⟩ : before = before' ∧ after = after' := by
      simpa using hcut.symm.trans (honly.cut hne hsplit)
    rw [show newText args = new by simp [newText, hnew]] at htext
    obtain ⟨hself, hformed⟩ := replaced_eq_iff.mp htext
    exact .inr (.inr ⟨new, before, after, hnew, hsplit, honly, hself, hformed⟩)
  · rintro (habsent | ⟨i, j, hij, hi, hj⟩ |
      ⟨new, before', after', hnew, hsplit, honly, hself, hformed⟩)
    · rw [← Search.cut_eq_none_iff, hcut] at habsent
      exact absurd habsent nofun
    · exact absurd hij (Search.not_apart_of_cut hcut hagain hi hj)
    · obtain ⟨rfl, rfl⟩ : before = before' ∧ after = after' := by
        simpa using hcut.symm.trans (honly.cut hne hsplit)
      rw [show newText args = new by simp [newText, hnew], replaced_eq_iff.mpr ⟨hself, hformed⟩]
      exact .text hold hnew hne hsplit honly

theorem editText_twice {before after middle behind : Utf16} (hold : args.old = some old)
    (hne : old ≠ []) (hcut : Search.cut old file.text = some (before, after))
    (hagain : Search.cut old after = some (middle, behind)) :
    Meeting (Intended d file args) (editText host resolved file old args) ↔
      TextExact file old args := by
  have hcount := length_split_of_cut_twice hne hcut hagain
  have hpos := List.length_pos_of_ne_nil hne
  obtain ⟨hfirst, hsecond⟩ := Search.apart_of_cut hcut hagain
  have hresult : ∃ content, editText host resolved file old args = refuse content := by
    dsimp only [editText]
    rw [if_neg (by omega), if_pos (by omega)]
    exact ⟨_, rfl⟩
  obtain ⟨content, hresult⟩ := hresult
  rw [hresult, meeting_refuse, TextExact, if_neg hne]
  refine ⟨fun _ => .inr (.inl ⟨_, _, by omega, hfirst, hsecond⟩), fun _ text htext => ?_⟩
  obtain ⟨new, before', after', -, -, -, honly, -⟩ := htext.of_old hold
  have hsame := ((honly _).mp hfirst).trans ((honly _).mp hsecond).symm
  omega

theorem length_split_nil (text : Utf16) : (split [] text).length = text.length := by simp [split]

/-- An empty text is found once in a text of two letters and, where it is counted, less often than
not at all in an empty one. -/
theorem editText_nil (hold : args.old = some []) :
    Meeting (Intended d file args) (editText host resolved file [] args) ↔
      TextExact file [] args := by
  have hcount := length_split_nil file.text
  rw [TextExact, if_pos rfl]
  dsimp only [editText]
  split_ifs with hzero hmany
  · rw [meeting_refuse]
    exact ⟨fun _ => by omega, fun _ => not_intended_nil hold⟩
  · rw [meeting_refuse]
    exact ⟨fun _ => by omega, fun _ => not_intended_nil hold⟩
  · rw [meeting_wrote]
    exact ⟨fun h => absurd h (not_intended_nil hold _), fun h => by omega⟩

theorem editText_meets (hold : args.old = some old) :
    Meeting (Intended d file args) (editText host resolved file old args) ↔
      TextExact file old args := by
  by_cases hne : old = []
  · subst hne
    exact editText_nil hold
  · cases hcut : Search.cut old file.text with
    | none => exact editText_absent hold hne hcut
    | some parts =>
      cases hagain : Search.cut old parts.2 with
      | none => exact editText_once hold hne hcut hagain
      | some more => exact editText_twice hold hne hcut hagain

end Text

/-! ### Lines are replaced -/

section Lines

variable {host : EditHost} {file : Contents} {args : EditArgs} {start stop : ℕ}

theorem Contents.length_lines_le (file : Contents) : file.lines.length ≤ 2 ^ 53 := by
  have hlines := Splits.length_splitOn_le 0x0a file.text
  have hshort := file.short
  unfold Contents.lines
  omega

theorem Contents.length_lines_pos (file : Contents) : 1 ≤ file.lines.length :=
  List.length_pos_of_ne_nil (List.splitOn_ne_nil 0x0a file.text)

theorem refused_nat {lines : ℕ} :
    refused (.nat start) (.nat stop) lines = false ↔
      1 ≤ start ∧ start ≤ stop ∧ start ≤ lines := by
  rw [refused, ← Bool.not_eq_true, Bool.or_eq_true, Bool.or_eq_true, Num.lt_nat, Num.lt_nat,
    Num.lt_nat]
  omega

theorem orElse_nat {m : ℕ} (x : Num) (h : 1 ≤ m) : (Num.nat m).orElse x = .nat m := by
  have hne : (m : ℚ) ≠ 0 := Nat.cast_ne_zero.mpr (by omega)
  simp [Num.orElse, Num.nat, hne]

theorem startLine_of_selects (hall : args.range ≠ some (ascii "all"))
    (h : Selects host.doubles args file.lines.length start stop) :
    ∃ endLine, lineBounds host args = some (.nat start, endLine) := by
  cases h with
  | all h => exact absurd h hall
  | line h => exact ⟨.nat start, by simp only [lineBounds, h]⟩
  | one h hline _ hcolon hnumber =>
    simp [lineBounds, h, hline, List.splitOn_eq_singleton hcolon, hnumber]
  | range h hline hstart _ hm =>
    simp [lineBounds, h, hline, List.splitOn_append_cons_self, List.splitOn_eq_singleton hstart, hm]

theorem lineBounds_of_selects (hall : args.range ≠ some (ascii "all"))
    (h : Selects host.doubles args file.lines.length start stop) (hstop : 1 ≤ stop) :
    lineBounds host args = some (.nat start, .nat stop) := by
  cases h with
  | all h => exact absurd h hall
  | line h => simp only [lineBounds, h]
  | one h hline _ hcolon hnumber =>
    simp [lineBounds, h, hline, List.splitOn_eq_singleton hcolon, hnumber, Num.orElse]
  | range h hline hstart hstop' hm hn =>
    simp [lineBounds, h, hline, List.splitOn_append_cons_self, List.splitOn_eq_singleton hstart,
      List.splitOn_eq_singleton hstop', hm, hn, orElse_nat _ hstop]

variable {d : Doubles}

theorem Intended.of_lines {text : Utf16} (hold : args.old = none) (h : Intended d file args text) :
    ∃ start stop, Selects d args file.lines.length start stop ∧ 1 ≤ start ∧ start ≤ stop ∧
      start ≤ file.lines.length ∧
      text = join (file.lines.take (start - 1) ++ newLines args ++ file.lines.drop stop) := by
  cases h with
  | text hold' => exact absurd (hold'.symm.trans hold) nofun
  | lines _ hselects hstart hle hlines => exact ⟨_, _, hselects, hstart, hle, hlines, rfl⟩

/-- The subtractions are exact, but for a last line that is so far behind the file that all lines
are deleted anyhow. -/
theorem editedLines_nat (d : Doubles) (hstart : 1 ≤ start) (hle : start ≤ stop)
    (hlines : start ≤ file.lines.length) :
    editedLines d (.nat start) (.nat stop) file args =
      file.lines.take (start - 1) ++ newLines args ++ file.lines.drop stop := by
  have hbound := file.length_lines_le
  have hfirst : d.sub (.nat start) (.nat 1) = .nat (start - 1) := d.sub_nat (by omega) hstart
  have hindex : relativeIndex (.nat (start - 1)) file.lines.length = start - 1 :=
    relativeIndex_nat (by omega)
  simp only [editedLines, splice, hfirst, hindex]
  by_cases hstop : stop ≤ 2 ^ 53
  · have hcount : d.add (d.sub (.nat stop) (.nat start)) (.nat 1) = .nat (stop - start + 1) := by
      rw [d.sub_nat hstop hle]
      exact d.add_nat (by omega)
    rw [hcount, deleted_nat]
    rcases Nat.le_total stop file.lines.length with hin | hbehind
    · rw [Nat.min_eq_left (by omega), show start - 1 + (stop - start + 1) = stop by omega]
    · rw [List.drop_of_length_le (by omega), List.drop_of_length_le hbehind]
  · have hcount : (Num.nat (file.lines.length - (start - 1))).le
        (d.add (d.sub (.nat stop) (.nat start)) (.nat 1)) = true := by
      have hsub := d.add_mono (x := .nat (2 ^ 53)) (y := .nat stop)
        (Num.le_nat.mpr (by omega)) (-start)
      have hexact : d.add (.nat (2 ^ 53)) (.fin (-start)) = .nat (2 ^ 53 - start) :=
        d.sub_nat (Nat.le_refl _) (by omega)
      have hadd := d.add_mono hsub (1 : ℕ)
      have hone : d.add (.nat (2 ^ 53 - start)) (.fin (1 : ℕ)) = .nat (2 ^ 53 - start + 1) :=
        d.add_nat (by omega)
      rw [hexact, hone] at hadd
      exact Num.le_trans (Num.le_nat.mpr (by omega)) hadd
    rw [deleted_of_le hcount, List.drop_of_length_le (by omega), List.drop_of_length_le (by omega)]

theorem selects_of_all {lines : ℕ} (hall : args.range = some (ascii "all"))
    (h : Selects d args lines start stop) : start = 1 ∧ stop = lines := by
  cases h with
  | all => exact ⟨rfl, rfl⟩
  | line _ hrange => exact absurd hall hrange
  | one h _ hne => exact absurd (Option.some.inj (h.symm.trans hall)) hne
  | @range first last _ _ h =>
    have hmem : (0x3a : UInt16) ∈ ascii "all" := by
      rw [← Option.some.inj (h.symm.trans hall)]
      simp
    exact absurd hmem (by decide)

theorem join_newLines (args : EditArgs) : join (newLines args) = newText args := by
  unfold newLines
  split
  case isTrue h => rw [h]; rfl
  case isFalse => exact List.intercalate_splitOn 0x0a

theorem intended_all {text : Utf16} (hold : args.old = none)
    (hall : args.range = some (ascii "all")) : Intended d file args text ↔ text = newText args := by
  have hwhole : join (file.lines.take (1 - 1) ++ newLines args ++
      file.lines.drop file.lines.length) = newText args := by
    rw [List.take_zero, List.nil_append, List.drop_length, List.append_nil, join_newLines]
  constructor
  · intro h
    obtain ⟨start, stop, hselects, -, -, -, rfl⟩ := h.of_lines hold
    obtain ⟨rfl, rfl⟩ := selects_of_all hall hselects
    exact hwhole
  · rintro rfl
    have hpos := file.length_lines_pos
    have hintended := Intended.lines (d := d) hold (.all hall) (Nat.le_refl 1) hpos hpos
    rwa [hwhole] at hintended

/-- Accepted bounds put the lines in that are meant, if they are whole numbers as given. -/
theorem intended_edited {bounds : Num × Num} (hold : args.old = none)
    (hall : args.range ≠ some (ascii "all")) (hbounds : lineBounds host args = some bounds)
    (haccepted : refused bounds.1 bounds.2 file.lines.length = false) :
    Intended host.doubles file args
        (toWellFormed (join (editedLines host.doubles bounds.1 bounds.2 file args))) ↔
      ∃ start stop, Selects host.doubles args file.lines.length start stop ∧ start ≤ stop ∧
        WellFormed (join (file.lines.take (start - 1) ++ newLines args ++ file.lines.drop stop)) := by
  constructor
  · intro h
    obtain ⟨start, stop, hselects, hstart, hle, hlines, htext⟩ := h.of_lines hold
    have hsame := hbounds.symm.trans (lineBounds_of_selects hall hselects (by omega))
    obtain rfl : bounds = (.nat start, .nat stop) := Option.some.inj hsame
    rw [editedLines_nat _ hstart hle hlines] at htext
    exact ⟨start, stop, hselects, hle, htext⟩
  · rintro ⟨start, stop, hselects, hle, hformed⟩
    have hstart : 1 ≤ start := by
      obtain ⟨endLine, hfirst⟩ := startLine_of_selects hall hselects
      rw [Option.some.inj (hbounds.symm.trans hfirst), refused, Bool.or_eq_false_iff,
        Bool.or_eq_false_iff] at haccepted
      by_contra hzero
      rw [Num.lt_nat.mpr (by omega)] at haccepted
      exact absurd haccepted.1.1 nofun
    have hsame := hbounds.symm.trans (lineBounds_of_selects hall hselects (by omega))
    obtain rfl : bounds = (.nat start, .nat stop) := Option.some.inj hsame
    obtain ⟨-, -, hlines⟩ := refused_nat.mp haccepted
    rw [editedLines_nat _ hstart hle hlines, hformed]
    exact .lines hold hselects hstart hle hlines

theorem editLines_meets {resolved : Utf16} (hold : args.old = none) :
    Meeting (Intended host.doubles file args) (editLines host resolved file args) ↔
      LinesExact host file args := by
  by_cases hall : args.range = some (ascii "all")
  · rw [editLines, LinesExact, if_pos hall, if_pos hall, meeting_wrote, intended_all hold hall]
    exact Iff.rfl
  · rw [editLines, LinesExact, if_neg hall, if_neg hall]
    cases hbounds : lineBounds host args with
    | none =>
      refine iff_of_true ((meeting_refuse _).mpr fun text htext => ?_) nofun
      obtain ⟨start, stop, hselects, hstart, hle, -⟩ := htext.of_lines hold
      have hsome := lineBounds_of_selects hall hselects (hstart.trans hle)
      exact absurd (hbounds.symm.trans hsome) nofun
    | some bounds =>
      cases haccepted : refused bounds.1 bounds.2 file.lines.length with
      | true =>
        simp only [haccepted, if_true]
        refine iff_of_true ((meeting_refuse _).mpr fun text htext => ?_) ?_
        · obtain ⟨start, stop, hselects, hstart, hle, hlines, -⟩ := htext.of_lines hold
          have hsame := hbounds.symm.trans (lineBounds_of_selects hall hselects (by omega))
          obtain rfl : bounds = (.nat start, .nat stop) := Option.some.inj hsame
          rw [refused_nat.mpr ⟨hstart, hle, hlines⟩] at haccepted
          exact absurd haccepted nofun
        · rintro _ hsome hfalse
          rw [Option.some.inj hsome] at haccepted
          exact absurd (haccepted.symm.trans hfalse) nofun
      | false =>
        simp only [haccepted, Bool.false_eq_true, if_false]
        rw [meeting_wrote, intended_edited hold hall hbounds haccepted]
        constructor
        · rintro hmeant _ hsome -
          exact hmeant
        · intro hexact
          exact hexact bounds rfl haccepted

end Lines

/-! ### The edit -/

variable {args : EditArgs}

theorem Opened.unique {host : EditHost} {file file' : Contents} (h : Opened host args file)
    (h' : Opened host args file') : file = file' := by
  obtain ⟨-, resolved, hresolve, hread⟩ := h
  obtain ⟨-, resolved', hresolve', hread'⟩ := h'
  obtain rfl : resolved = resolved' := Except.ok.inj (hresolve.symm.trans hresolve')
  exact Option.some.inj (hread.symm.trans hread')

theorem toolEdit_opened {host : EditHost} {file : Contents} (h : Opened host args file) :
    ∃ resolved, toolEdit host args =
      match args.old with
      | some oldText => editText host resolved file oldText args
      | none => editLines host resolved file args := by
  obtain ⟨hpath, resolved, hresolve, hread⟩ := h
  exact ⟨resolved, by simp only [toolEdit, if_neg hpath, hresolve, hread]⟩

theorem toolEdit_closed {host : EditHost} (h : ∀ file, ¬ Opened host args file) :
    ∃ content, toolEdit host args = refuse content := by
  unfold toolEdit
  split
  case isTrue => exact ⟨_, rfl⟩
  case isFalse hpath =>
    split
    case h_1 => exact ⟨_, rfl⟩
    case h_2 resolved hresolve =>
      split
      case h_1 => exact ⟨_, rfl⟩
      case h_2 file hread => exact absurd ⟨hpath, resolved, hresolve, hread⟩ (h file)

/-- An edit replaces what is selected or writes nothing, exactly under the condition on the text
that is replaced or on the bounds of the lines. -/
theorem toolEdit_exact (host : EditHost) (args : EditArgs) :
    Meets host args ↔ ∀ file, Opened host args file → EditExact host file args := by
  by_cases hopen : ∃ file, Opened host args file
  · obtain ⟨file, hfile⟩ := hopen
    have hintended : (fun text => ∃ file, Opened host args file ∧
        Intended host.doubles file args text) = Intended host.doubles file args := by
      funext text
      refine propext ⟨fun ⟨file', hfile', h⟩ => ?_, fun h => ⟨file, hfile, h⟩⟩
      rwa [hfile.unique hfile']
    have hexact : (∀ file, Opened host args file → EditExact host file args) ↔
        EditExact host file args :=
      ⟨fun h => h file hfile, fun h file' hfile' => hfile.unique hfile' ▸ h⟩
    obtain ⟨resolved, hresult⟩ := toolEdit_opened hfile
    rw [Meets, hintended, hexact, hresult, EditExact]
    cases hold : args.old with
    | some old => exact editText_meets hold
    | none => exact editLines_meets hold
  · have hclosed : ∀ file, ¬ Opened host args file := fun file hfile => hopen ⟨file, hfile⟩
    obtain ⟨content, hresult⟩ := toolEdit_closed hclosed
    rw [Meets, hresult, meeting_refuse]
    refine iff_of_true (fun text h => ?_) fun file hfile => absurd hfile (hclosed file)
    obtain ⟨file, hfile, -⟩ := h
    exact hclosed file hfile

/-- A file with the text `x`, and a new text that has `$&` in it. -/
def onlyX : Contents := ⟨ascii "x", by decide, by unfold WellFormed; decide⟩

def hostOf (file : Contents) : EditHost where
  doubles := default
  digits _ := []
  resolveToolPath := .ok
  readFile _ := some file

def patterned : EditArgs := ⟨ascii "f", some (ascii "x"), some (ascii "$&y"), none, none⟩

/-- What is written is `xy` and not the new text `$&y`. -/
theorem patterned_replaced : ¬ Meets (hostOf onlyX) patterned := by
  have hresult : (toolEdit (hostOf onlyX) patterned).isError = false ∧
      (toolEdit (hostOf onlyX) patterned).written = some (ascii "xy") := by decide
  rintro (⟨text, ⟨file, -, hintended⟩, -, hwritten⟩ | ⟨-, herror, -⟩)
  · obtain ⟨new, before, after, hnew, -, -, -, htext⟩ := hintended.of_old rfl
    have hxy : ascii "xy" = before ++ new ++ after :=
      (Option.some.inj (hresult.2.symm.trans hwritten)).trans htext
    obtain rfl : ascii "$&y" = new := Option.some.inj hnew
    have hlen := congrArg List.length hxy
    simp only [List.length_append] at hlen
    have hthree : (ascii "$&y").length = 3 := by decide
    have htwo : (ascii "xy").length = 2 := by decide
    omega
  · exact absurd (hresult.1.symm.trans herror) nofun

end Ds4Studio.Web
