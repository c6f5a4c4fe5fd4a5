import Mathlib.Data.List.Basic

/-!
Unified diffs as git writes them: sections of hunks of context, removed and added lines, their text,
and how it is read back by the counts in the headers of the hunks. Names are written without quotes,
and that git takes a hunk without context only with `--unidiff-zero` is left out.
-/

namespace Ds4Studio.UnifiedDiff

open List Option

/-- A line without what ends it. -/
abbrev Line := List Char

def newline : Char := '\n'

/-! ### Hunks -/

inductive Kind where
  | context | removed | added
deriving DecidableEq

def Kind.mark : Kind → Char
  | .context => ' '
  | .removed => '-'
  | .added => '+'

structure BodyLine where
  kind : Kind
  text : Line
  /-- A marker follows: no newline ends the line in its file. -/
  bare : Bool := false

structure Hunk where
  oldStart : ℕ
  newStart : ℕ
  /-- A count of one is written out. -/
  oldSpelled : Bool := false
  newSpelled : Bool := false
  /-- What follows the ranges in the header. -/
  heading : Line := []
  body : List BodyLine

def marker : Line := "\\ No newline at end of file".toList

def oldCount (body : List BodyLine) : ℕ := body.countP fun l => l.kind ≠ .added

def newCount (body : List BodyLine) : ℕ := body.countP fun l => l.kind ≠ .removed

def rangeText (start count : ℕ) (spelled : Bool) : Line :=
  Nat.toDigits 10 start ++
    if count = 1 ∧ spelled = false then [] else ',' :: Nat.toDigits 10 count

def Hunk.header (h : Hunk) : Line :=
  "@@ -".toList ++ (rangeText h.oldStart (oldCount h.body) h.oldSpelled ++
    (" +".toList ++ (rangeText h.newStart (newCount h.body) h.newSpelled ++
      (" @@".toList ++ h.heading))))

def BodyLine.lines (l : BodyLine) : List Line :=
  (l.kind.mark :: l.text) :: if l.bare then [marker] else []

def bodyLines (body : List BodyLine) : List Line := body.flatMap BodyLine.lines

def Hunk.lines (h : Hunk) : List Line := h.header :: bodyLines h.body

/-! ### Sections -/

/-- The lines of a header behind its first one, by how they begin. -/
inductive Field where
  | oldMode | newMode | createdMode | deletedMode | similarity | renameSource | renameTarget
  | copySource | copyTarget | index | oldName | newName
deriving DecidableEq

def Field.start : Field → Line
  | .oldMode => "old mode ".toList
  | .newMode => "new mode ".toList
  | .createdMode => "new file mode ".toList
  | .deletedMode => "deleted file mode ".toList
  | .similarity => "similarity index ".toList
  | .renameSource => "rename from ".toList
  | .renameTarget => "rename to ".toList
  | .copySource => "copy from ".toList
  | .copyTarget => "copy to ".toList
  | .index => "index ".toList
  | .oldName => "--- ".toList
  | .newName => "+++ ".toList

inductive Change where
  | modified (modes : Option (Line × Line))
  | created (mode : Line)
  | deleted (mode : Line)
  | renamed (modes : Option (Line × Line)) (similarity source : Line)
  | copied (modes : Option (Line × Line)) (similarity source : Line)

structure Section where
  /-- The path of the file behind the change, or of the file that goes. -/
  path : Line
  change : Change
  index : Option Line := none
  /-- The lines with the two names are there. -/
  named : Bool := true
  hunks : List Hunk

abbrev Diff := List Section

/-- The path of the file in front of the change. -/
def Section.source (s : Section) : Line :=
  match s.change with
  | .renamed _ _ source | .copied _ _ source => source
  | _ => s.path

def gitLine (source path : Line) : Line :=
  "diff --git a/".toList ++ (source ++ (" b/".toList ++ path))

def modeFields : Option (Line × Line) → List (Field × Line)
  | none => []
  | some (before, after) => [(.oldMode, before), (.newMode, after)]

def Change.fields (path : Line) : Change → List (Field × Line)
  | .modified modes => modeFields modes
  | .created mode => [(.createdMode, mode)]
  | .deleted mode => [(.deletedMode, mode)]
  | .renamed modes similarity source => modeFields modes ++
      [(.similarity, similarity), (.renameSource, source), (.renameTarget, path)]
  | .copied modes similarity source => modeFields modes ++
      [(.similarity, similarity), (.copySource, source), (.copyTarget, path)]

def Section.oldName (s : Section) : Line :=
  match s.change with
  | .created _ => "/dev/null".toList
  | _ => "a/".toList ++ s.source

def Section.newName (s : Section) : Line :=
  match s.change with
  | .deleted _ => "/dev/null".toList
  | _ => "b/".toList ++ s.path

def Section.fields (s : Section) : List (Field × Line) :=
  s.change.fields s.path ++ ((s.index.map (Prod.mk Field.index)).toList ++
    if s.named then [(.oldName, s.oldName), (.newName, s.newName)] else [])

def fieldLine (f : Field × Line) : Line := f.1.start ++ f.2

def Section.extended (s : Section) : List Line := s.fields.map fieldLine

def hunkLines (hunks : List Hunk) : List Line := hunks.flatMap Hunk.lines

def Section.lines (s : Section) : List Line :=
  gitLine s.source s.path :: (s.extended ++ hunkLines s.hunks)

def linesOf (d : Diff) : List Line := d.flatMap Section.lines

def terminated (lines : List Line) : Line := lines.flatMap fun l => l ++ [newline]

def textOf (d : Diff) : Line := terminated (linesOf d)

/-! ### Reading -/

def startsWith (start l : Line) : Bool := start.isPrefixOf l

def strip (start l : Line) : Option Line :=
  if startsWith start l then some (l.drop start.length) else none

def readDigits (l : Line) : Option (ℕ × Line) :=
  if l.takeWhile Char.isDigit = [] then none
  else some (Nat.ofDigitChars 10 (l.takeWhile Char.isDigit) 0, l.dropWhile Char.isDigit)

/-- A start with a count, which is one where it is left out. -/
def readRange (l : Line) : Option (ℕ × ℕ × Line) := do
  let (start, rest) ← readDigits l
  match rest with
  | ',' :: rest =>
      let (count, rest) ← readDigits rest
      return (start, count, rest)
  | _ => return (start, 1, rest)

structure Header where
  oldStart : ℕ
  oldCount : ℕ
  newStart : ℕ
  newCount : ℕ
  heading : Line

def readHeader (l : Line) : Option Header := do
  let rest ← strip "@@ -".toList l
  let (oldStart, oldCount, rest) ← readRange rest
  let rest ← strip " +".toList rest
  let (newStart, newCount, rest) ← readRange rest
  let heading ← strip " @@".toList rest
  return ⟨oldStart, oldCount, newStart, newCount, heading⟩

def takeMarker : List Line → Bool × List Line
  | [] => (false, [])
  | m :: rest => if m = marker then (true, rest) else (false, m :: rest)

def kindOf : Char → Option Kind
  | ' ' => some .context
  | '-' => some .removed
  | '+' => some .added
  | _ => none

/-- How many old and new lines are left once a line has been read. -/
def Kind.counts : Kind → ℕ → ℕ → Option (ℕ × ℕ)
  | .context, old + 1, new + 1 => some (old, new)
  | .removed, old + 1, new => some (old, new)
  | .added, old, new + 1 => some (old, new)
  | _, _, _ => none

/-- The body of a hunk, by its counts. -/
def readBody : ℕ → ℕ → ℕ → List Line → Option (List BodyLine × List Line)
  | _, 0, 0, lines => some ([], lines)
  | fuel + 1, old, new, (c :: text) :: rest => do
      let kind ← kindOf c
      let (old, new) ← kind.counts old new
      let (body, after) ← readBody fuel old new (takeMarker rest).2
      return (⟨kind, text, (takeMarker rest).1⟩ :: body, after)
  | _, _, _, _ => none

/-- The hunks that come next. -/
def readHunks : ℕ → List Line → Option (List Hunk × List Line)
  | fuel + 1, l :: rest =>
      if startsWith "@@ ".toList l then do
        let h ← readHeader l
        let (body, rest) ← readBody (h.oldCount + h.newCount) h.oldCount h.newCount rest
        let (hunks, rest) ← readHunks fuel rest
        return (⟨h.oldStart, h.newStart, false, false, h.heading, body⟩ :: hunks, rest)
      else some ([], l :: rest)
  | _, lines => some ([], lines)

/-- A header without quotes names its file twice. -/
def readGitLine (l : Line) : Option Line := do
  let rest ← strip "diff --git a/".toList l
  let path := rest.take ((rest.length - 3) / 2)
  if rest = path ++ (" b/".toList ++ path) then some path else none

def readField (f : Field) (lines : List Line) : Option Line := lines.findSome? (strip f.start)

def readModes (lines : List Line) : Option (Line × Line) :=
  match readField .oldMode lines, readField .newMode lines with
  | some before, some after => some (before, after)
  | _, _ => none

def readChange (lines : List Line) : Change :=
  match readField .createdMode lines, readField .deletedMode lines with
  | some mode, _ => .created mode
  | none, some mode => .deleted mode
  | none, none =>
      let similarity := (readField .similarity lines).getD []
      match readField .renameSource lines, readField .copySource lines with
      | some source, _ => .renamed (readModes lines) similarity source
      | none, some source => .copied (readModes lines) similarity source
      | none, none => .modified (readModes lines)

/-- The path of a section stands in its first line, or in that of a rename or a copy. -/
def readPath (first : Line) (lines : List Line) : Option Line :=
  match readField .renameTarget lines, readField .copyTarget lines with
  | some path, _ => some path
  | none, some path => some path
  | none, none => readGitLine first

/-- A line of a header behind its first one. -/
def isExtended (l : Line) : Bool :=
  !startsWith "@@ ".toList l && !startsWith "diff --git ".toList l

def readSections : ℕ → List Line → Option Diff
  | _, [] => some []
  | fuel + 1, l :: rest => do
      let extended := rest.takeWhile isExtended
      let path ← readPath l extended
      let (hunks, rest) ← readHunks rest.length (rest.dropWhile isExtended)
      let sections ← readSections fuel rest
      return ⟨path, readChange extended, readField .index extended,
        (readField .oldName extended).isSome, hunks⟩ :: sections
  | 0, _ :: _ => none

/-- The lines of a text, whose last line may end with a newline or not. -/
def textLines (text : Line) : List Line :=
  let lines := text.splitOn newline
  if lines.getLast? = some [] then lines.dropLast else lines

def read (text : Line) : Option Diff := readSections (textLines text).length (textLines text)

/-! ### Texts that can be read back -/

def OneLine (l : Line) : Prop := newline ∉ l

instance (l : Line) : Decidable (OneLine l) := inferInstanceAs (Decidable (newline ∉ l))

structure Hunk.Printable (h : Hunk) : Prop where
  heading : OneLine h.heading
  body : ∀ l ∈ h.body, OneLine l.text

structure Section.Printable (s : Section) : Prop where
  source : OneLine s.source
  path : OneLine s.path
  fields : ∀ f ∈ s.change.fields s.path, OneLine f.2
  index : ∀ i, s.index = some i → OneLine i
  hunks : ∀ h ∈ s.hunks, h.Printable

/-- A hunk as it is read back: counts of one are not written out. -/
def Hunk.plain (h : Hunk) : Hunk := { h with oldSpelled := false, newSpelled := false }

def Section.plain (s : Section) : Section := { s with hunks := s.hunks.map Hunk.plain }

/-! ### Reading a header of a hunk -/

@[simp] theorem startsWith_append (start l : Line) : startsWith start (start ++ l) = true := by
  simp [startsWith]

@[simp] theorem strip_append (start l : Line) : strip start (start ++ l) = some l := by simp [strip]

theorem isDigit_of_mem {n : ℕ} {c : Char} (h : c ∈ Nat.toDigits 10 n) : c.isDigit = true :=
  Nat.isDigit_of_mem_toDigits (by decide) (by decide) h

theorem takeWhile_digits {ds rest : Line} (hds : ∀ c ∈ ds, c.isDigit = true)
    (hrest : ∀ c ∈ rest.head?, c.isDigit = false) :
    (ds ++ rest).takeWhile Char.isDigit = ds ∧ (ds ++ rest).dropWhile Char.isDigit = rest := by
  induction ds with
  | nil =>
    cases rest with
    | nil => exact ⟨rfl, rfl⟩
    | cons c rest =>
      have hc := hrest c rfl
      constructor
      · rw [nil_append, takeWhile_cons, hc]
        rfl
      · rw [nil_append, dropWhile_cons, hc]
        rfl
  | cons d ds ih =>
    have hd := hds d mem_cons_self
    obtain ⟨htake, hdrop⟩ := ih fun c hc => hds c (mem_cons_of_mem d hc)
    constructor
    · rw [cons_append, takeWhile_cons, hd, if_pos rfl, htake]
    · rw [cons_append, dropWhile_cons, hd, if_pos rfl, hdrop]

theorem readDigits_append (n : ℕ) {rest : Line} (h : ∀ c ∈ rest.head?, c.isDigit = false) :
    readDigits (Nat.toDigits 10 n ++ rest) = some (n, rest) := by
  obtain ⟨htake, hdrop⟩ := takeWhile_digits (fun _ hc => isDigit_of_mem hc) h
  unfold readDigits
  rw [htake, hdrop, if_neg Nat.toDigits_ne_nil, Nat.ofDigitChars_toDigits (by decide) (by decide)]

theorem readRange_append (start count : ℕ) (spelled : Bool) {rest : Line}
    (hdigit : ∀ c ∈ rest.head?, c.isDigit = false) (hcomma : ∀ c ∈ rest.head?, c ≠ ',') :
    readRange (rangeText start count spelled ++ rest) = some (start, count, rest) := by
  unfold rangeText readRange
  by_cases hone : count = 1 ∧ spelled = false
  · rw [if_pos hone, append_nil, readDigits_append start hdigit, hone.1]
    cases rest with
    | nil => rfl
    | cons c rest =>
      have hc := hcomma c rfl
      simp only [bind_eq_bind, bind_some]
      split
      · rename_i hcons
        exact absurd (cons.inj hcons).1 hc
      · rfl
  · have hcons : ∀ c ∈ (',' :: Nat.toDigits 10 count ++ rest).head?, c.isDigit = false := by
      intro c hc
      cases hc
      decide
    rw [if_neg hone, append_assoc, readDigits_append start hcons]
    simp only [bind_eq_bind, bind_some, cons_append, readDigits_append count hdigit]
    rfl

theorem readHeader_header (h : Hunk) :
    readHeader h.header =
      some ⟨h.oldStart, oldCount h.body, h.newStart, newCount h.body, h.heading⟩ := by
  unfold readHeader Hunk.header
  rw [strip_append]
  simp only [bind_eq_bind, bind_some]
  rw [readRange_append]
  · simp only [bind_some, strip_append]
    rw [readRange_append]
    · simp only [bind_some, strip_append]
      rfl
    · intro c hc
      cases hc
      decide
    · intro c hc
      cases hc
      decide
  · intro c hc
    cases hc
    decide
  · intro c hc
    cases hc
    decide

/-! ### Reading hunks -/

theorem mark_ne_marker (k : Kind) (text : Line) : k.mark :: text ≠ marker := by
  intro h
  have hmarker : marker.head? = some '\\' := by decide
  rw [← h, head?_cons] at hmarker
  cases k <;> exact absurd hmarker (by decide)

theorem kindOf_mark (k : Kind) : kindOf k.mark = some k := by cases k <;> rfl

/-- No marker comes next. -/
def Unmarked (rest : List Line) : Prop := ∀ l ∈ rest.head?, l ≠ marker

variable {rest : List Line}

theorem takeMarker_of_unmarked (h : Unmarked rest) : takeMarker rest = (false, rest) := by
  cases rest with
  | nil => rfl
  | cons m rest => exact if_neg (h m rfl)

theorem unmarked_bodyLines (body : List BodyLine) (h : Unmarked rest) :
    Unmarked (bodyLines body ++ rest) := by
  cases body with
  | nil => exact h
  | cons l body =>
    intro m hm
    cases hm
    exact mark_ne_marker l.kind l.text

theorem takeMarker_bare (bare : Bool) (h : Unmarked rest) :
    takeMarker ((if bare then [marker] else []) ++ rest) = (bare, rest) := by
  cases bare with
  | true =>
    simp [takeMarker]
  | false => exact takeMarker_of_unmarked h

theorem counts_cons (l : BodyLine) (body : List BodyLine) :
    l.kind.counts (oldCount (l :: body)) (newCount (l :: body)) =
        some (oldCount body, newCount body) ∧
      oldCount body + newCount body < oldCount (l :: body) + newCount (l :: body) := by
  obtain ⟨kind, text, bare⟩ := l
  unfold oldCount newCount
  cases kind with
  | context =>
    simp [Kind.counts]
    omega
  | removed => simp [Kind.counts]
  | added => simp [Kind.counts]

theorem readBody_lines (hrest : Unmarked rest) (body : List BodyLine) :
    ∀ fuel, oldCount body + newCount body ≤ fuel →
      readBody fuel (oldCount body) (newCount body) (bodyLines body ++ rest) =
        some (body, rest) := by
  induction body with
  | nil =>
    intro fuel _
    cases fuel <;> rfl
  | cons l body ih =>
    intro fuel hfuel
    obtain ⟨hcounts, hlt⟩ := counts_cons l body
    obtain ⟨fuel, rfl⟩ : ∃ n, fuel = n + 1 := ⟨fuel - 1, by omega⟩
    have hmarker := takeMarker_bare l.bare (unmarked_bodyLines body hrest)
    have hlines : bodyLines (l :: body) ++ rest =
        (l.kind.mark :: l.text) ::
          ((if l.bare then [marker] else []) ++ (bodyLines body ++ rest)) := by
      unfold bodyLines BodyLine.lines
      rw [flatMap_cons, cons_append, cons_append, append_assoc]
    have hread : readBody (fuel + 1) (oldCount (l :: body)) (newCount (l :: body))
        ((l.kind.mark :: l.text) ::
          ((if l.bare then [marker] else []) ++ (bodyLines body ++ rest))) =
        (do
          let kind ← kindOf l.kind.mark
          let (old, new) ← kind.counts (oldCount (l :: body)) (newCount (l :: body))
          let (more, after) ← readBody fuel old new
            (takeMarker ((if l.bare then [marker] else []) ++ (bodyLines body ++ rest))).2
          return (⟨kind, l.text,
            (takeMarker ((if l.bare then [marker] else []) ++ (bodyLines body ++ rest))).1⟩ :: more,
            after)) := by
      rw [readBody]
      intro h1 h2
      omega
    rw [hlines, hread, kindOf_mark, hmarker]
    simp only [bind_eq_bind, bind_some, hcounts]
    rw [ih fuel (by omega)]
    rfl

theorem startsWith_header (h : Hunk) : startsWith "@@ ".toList h.header = true := by rfl

theorem header_ne_marker (h : Hunk) : h.header ≠ marker := by
  intro heq
  have hstart := startsWith_header h
  rw [heq] at hstart
  exact absurd hstart (by decide)

/-- Neither a hunk nor a marker comes next. -/
def Closed (rest : List Line) : Prop :=
  ∀ l ∈ rest.head?, startsWith "@@ ".toList l = false ∧ l ≠ marker

theorem unmarked_hunkLines {hunks : List Hunk} (h : Closed rest) :
    Unmarked (hunkLines hunks ++ rest) := by
  cases hunks with
  | nil => exact fun l hl => (h l hl).2
  | cons hunk hunks =>
    intro l hl
    cases hl
    exact header_ne_marker hunk

theorem readHunks_lines (hrest : Closed rest) (hunks : List Hunk) :
    ∀ fuel, hunks.length ≤ fuel →
      readHunks fuel (hunkLines hunks ++ rest) = some (hunks.map Hunk.plain, rest) := by
  induction hunks with
  | nil =>
    intro fuel _
    cases fuel with
    | zero => rfl
    | succ fuel =>
      cases rest with
      | nil => rfl
      | cons l rest =>
        have hl := (hrest l rfl).1
        change readHunks (fuel + 1) (l :: rest) = _
        rw [readHunks, hl]
        rfl
  | cons h hunks ih =>
    intro fuel hfuel
    obtain ⟨fuel, rfl⟩ : ∃ n, fuel = n + 1 := ⟨fuel - 1, by
      rw [length_cons] at hfuel
      omega⟩
    have hlines : hunkLines (h :: hunks) ++ rest =
        h.header :: (bodyLines h.body ++ (hunkLines hunks ++ rest)) := by
      unfold hunkLines Hunk.lines
      rw [flatMap_cons, cons_append, cons_append, append_assoc]
    rw [hlines, readHunks, readHeader_header]
    simp only [bind_eq_bind, bind_some]
    rw [readBody_lines (unmarked_hunkLines hrest) h.body _ Nat.le.refl]
    simp only [bind_some]
    rw [ih fuel (by rw [length_cons] at hfuel; omega)]
    rfl

/-! ### Reading sections -/

theorem readGitLine_gitLine (path : Line) : readGitLine (gitLine path path) = some path := by
  unfold readGitLine gitLine
  rw [strip_append]
  have hlength : ((path ++ (" b/".toList ++ path)).length - 3) / 2 = path.length := by
    have hthree : " b/".toList.length = 3 := by decide
    rw [length_append, length_append]
    omega
  simp only [bind_eq_bind, bind_some]
  rw [hlength, take_left, if_pos rfl]

/-- Neither of two texts begins with the other. -/
def apart (p q : Line) : Bool := !startsWith p q && !startsWith q p

theorem startsWith_of_apart {p q : Line} (h : apart p q = true) (l : Line) :
    startsWith p (q ++ l) = false := by
  unfold apart startsWith at h
  rw [Bool.and_eq_true] at h
  rw [Bool.eq_false_iff]
  intro hp
  rcases prefix_or_prefix_of_prefix ( isPrefixOf_iff_prefix.mp hp)
      (prefix_append q l) with hpq | hqp
  · rw [ isPrefixOf_iff_prefix.mpr hpq] at h
    exact Bool.noConfusion h.1
  · rw [ isPrefixOf_iff_prefix.mpr hqp] at h
    exact Bool.noConfusion h.2

theorem strip_of_apart {p q : Line} (h : apart p q = true) (l : Line) :
    strip p (q ++ l) = none := by
  unfold strip
  rw [startsWith_of_apart h]
  rfl

theorem apart_fields : ∀ f g : Field, f ≠ g → apart f.start g.start = true := by
  intro f g
  cases f <;> cases g <;> decide

theorem apart_field : ∀ f : Field,
    apart "@@ ".toList f.start = true ∧ apart "diff --git ".toList f.start = true := by
  intro f
  cases f <;> decide

theorem readField_map (f : Field) (fields : List (Field × Line)) :
    readField f (fields.map fieldLine) = (fields.find? fun g => g.1 = f).map Prod.snd := by
  unfold readField
  induction fields with
  | nil => rfl
  | cons g fields ih =>
    rw [map_cons, findSome?_cons, find?_cons]
    unfold fieldLine
    by_cases hsame : g.1 = f
    · rw [hsame, strip_append, decide_eq_true rfl]
      rfl
    · rw [strip_of_apart (apart_fields f g.1 fun h => hsame h.symm), decide_eq_false hsame]
      exact ih

theorem read_extended (s : Section) :
    readChange s.extended = s.change ∧ readField .index s.extended = s.index ∧
      (readField .oldName s.extended).isSome = s.named ∧
      readPath (gitLine s.source s.path) s.extended = some s.path := by
  unfold readChange readModes readPath Section.extended
  simp only [readField_map]
  obtain ⟨path, change, index, named, hunks⟩ := s
  have hgit := readGitLine_gitLine path
  cases change with
  | modified modes =>
    cases modes <;> cases index <;> cases named <;> exact ⟨rfl, rfl, rfl, hgit⟩
  | created mode | deleted mode => cases index <;> cases named <;> exact ⟨rfl, rfl, rfl, hgit⟩
  | renamed modes similarity source | copied modes similarity source =>
    cases modes <;> cases index <;> cases named <;> exact ⟨rfl, rfl, rfl, rfl⟩

theorem isExtended_extended (s : Section) {l : Line} (h : l ∈ s.extended) :
    isExtended l = true := by
  obtain ⟨f, -, rfl⟩ := List.mem_map.mp h
  have hboth := apart_field f.1
  unfold isExtended fieldLine
  rw [startsWith_of_apart hboth.1, startsWith_of_apart hboth.2]
  rfl

/-- No line of a section, of a hunk or of a marker comes next but the first line of a section. -/
def Sectioned (rest : List Line) : Prop := ∀ l ∈ rest.head?, ∃ source path, l = gitLine source path

theorem Sectioned.closed (h : Sectioned rest) : Closed rest := by
  intro l hl
  obtain ⟨source, path, rfl⟩ := h l hl
  unfold gitLine
  refine ⟨startsWith_of_apart (by decide) _, ?_⟩
  intro heq
  have hstart := startsWith_append "diff --git a/".toList (source ++ (" b/".toList ++ path))
  rw [heq] at hstart
  exact absurd hstart (by decide)

theorem takeWhile_extended {s : Section} (h : Sectioned rest) :
    (s.extended ++ (hunkLines s.hunks ++ rest)).takeWhile isExtended = s.extended ∧
      (s.extended ++ (hunkLines s.hunks ++ rest)).dropWhile isExtended =
        hunkLines s.hunks ++ rest := by
  have hall : ∀ l ∈ s.extended, isExtended l = true := fun l hl => isExtended_extended s hl
  have hhead : ∀ l ∈ (hunkLines s.hunks ++ rest).head?, isExtended l = false := by
    intro l hl
    unfold isExtended
    cases hhunks : s.hunks with
    | nil =>
      rw [hhunks] at hl
      obtain ⟨source, path, rfl⟩ := h l hl
      have hstart : startsWith "diff --git ".toList (gitLine source path) = true := by rfl
      rw [hstart, Bool.not_true, Bool.and_false]
    | cons hunk hunks =>
      rw [hhunks] at hl
      cases hl
      rw [startsWith_header, Bool.not_true, Bool.false_and]
  rw [takeWhile_append_of_pos hall, dropWhile_append_of_pos hall]
  cases hnext : hunkLines s.hunks ++ rest with
  | nil => exact ⟨append_nil _, rfl⟩
  | cons l more =>
    rw [hnext] at hhead
    have hl := hhead l rfl
    rw [takeWhile_cons, dropWhile_cons, hl]
    exact ⟨append_nil _, rfl⟩

theorem length_le_hunkLines (hunks : List Hunk) : hunks.length ≤ (hunkLines hunks).length := by
  induction hunks with
  | nil => exact Nat.zero_le _
  | cons h hunks ih =>
    have hlines : hunkLines (h :: hunks) = h.lines ++ hunkLines hunks := flatMap_cons
    have hone : 1 ≤ h.lines.length := by
      unfold Hunk.lines
      rw [length_cons]
      omega
    rw [hlines, length_append, length_cons]
    omega

theorem sectioned_linesOf (d : Diff) : Sectioned (linesOf d) := by
  intro l hl
  cases d with
  | nil => cases hl
  | cons s d =>
    cases hl
    exact ⟨s.source, s.path, rfl⟩

theorem readSections_lines (d : Diff) :
    ∀ fuel, d.length ≤ fuel → readSections fuel (linesOf d) = some (d.map Section.plain) := by
  induction d with
  | nil =>
    intro fuel _
    cases fuel <;> rfl
  | cons s d ih =>
    intro fuel hfuel
    rw [length_cons] at hfuel
    obtain ⟨fuel, rfl⟩ : ∃ n, fuel = n + 1 := ⟨fuel - 1, by omega⟩
    have hlines : linesOf (s :: d) =
        gitLine s.source s.path :: (s.extended ++ (hunkLines s.hunks ++ linesOf d)) := by
      unfold linesOf Section.lines
      rw [flatMap_cons, cons_append, append_assoc]
    obtain ⟨htake, hdrop⟩ := takeWhile_extended (s := s) (sectioned_linesOf d)
    have hcount : s.hunks.length ≤ (s.extended ++ (hunkLines s.hunks ++ linesOf d)).length := by
      have hle : s.hunks.length ≤ (hunkLines s.hunks).length := by exact length_le_hunkLines s.hunks
      rw [length_append, length_append]
      omega
    obtain ⟨hchange, hindex, hnamed, hpath⟩ := read_extended s
    rw [hlines, readSections, htake, hpath]
    simp only [bind_eq_bind, bind_some]
    rw [hdrop, readHunks_lines (sectioned_linesOf d).closed s.hunks _ hcount]
    simp only [bind_some]
    rw [ih fuel (by omega), hchange, hindex, hnamed]
    rfl

/-! ### Lines and texts -/

theorem splitOn_terminated {lines : List Line} (h : ∀ l ∈ lines, OneLine l) :
    (terminated lines).splitOn newline = lines ++ [[]] := by
  induction lines with
  | nil => rfl
  | cons l lines ih =>
    have hl : newline ∉ l := h l mem_cons_self
    have htext : terminated (l :: lines) = l ++ newline :: terminated lines := by
      unfold terminated
      rw [flatMap_cons, append_assoc, singleton_append]
    rw [htext, splitOn_append_cons_self_of_not_mem hl,
      ih fun m hm => h m (mem_cons_of_mem l hm), cons_append]

theorem textLines_terminated {lines : List Line} (h : ∀ l ∈ lines, OneLine l) :
    textLines (terminated lines) = lines := by
  unfold textLines
  rw [splitOn_terminated h]
  simp only [getLast?_append, getLast?_singleton, some_or, if_true, dropLast_concat]

theorem oneLine_append {a b : Line} (ha : OneLine a) (hb : OneLine b) : OneLine (a ++ b) := by
  unfold OneLine at *
  rw [mem_append]
  exact fun h => h.elim ha hb

theorem oneLine_digits (n : ℕ) : OneLine (Nat.toDigits 10 n) := by
  intro h
  exact absurd (isDigit_of_mem h) (by decide)

theorem oneLine_rangeText (start count : ℕ) (spelled : Bool) :
    OneLine (rangeText start count spelled) := by
  refine oneLine_append (oneLine_digits start) ?_
  split
  · exact not_mem_nil
  · exact oneLine_append (a := [',']) (by decide) (oneLine_digits count)

theorem Hunk.Printable.lines {h : Hunk} (hh : h.Printable) : ∀ l ∈ h.lines, OneLine l := by
  intro l hl
  unfold Hunk.lines at hl
  rw [mem_cons] at hl
  rcases hl with rfl | hl
  · unfold Hunk.header
    exact oneLine_append (by decide) (oneLine_append (oneLine_rangeText _ _ _)
      (oneLine_append (by decide) (oneLine_append (oneLine_rangeText _ _ _)
        (oneLine_append (by decide) hh.heading))))
  · unfold bodyLines at hl
    rw [mem_flatMap] at hl
    obtain ⟨b, hb, hl⟩ := hl
    unfold BodyLine.lines at hl
    rw [mem_cons] at hl
    rcases hl with rfl | hl
    · refine oneLine_append (a := [b.kind.mark]) ?_ (hh.body b hb)
      cases b.kind <;> decide
    · split at hl
      · rw [mem_singleton] at hl
        rw [hl]
        decide
      · cases hl

theorem oneLine_start (f : Field) : OneLine f.start := by cases f <;> decide

theorem Section.Printable.extended {s : Section} (hs : s.Printable) :
    ∀ l ∈ s.extended, OneLine l := by
  intro l hl
  have hold : OneLine s.oldName := by
    unfold Section.oldName
    split
    · decide
    · exact oneLine_append (by decide) hs.source
  have hnew : OneLine s.newName := by
    unfold Section.newName
    split
    · decide
    · exact oneLine_append (by decide) hs.path
  obtain ⟨f, hf, rfl⟩ := List.mem_map.mp hl
  refine oneLine_append (oneLine_start f.1) ?_
  unfold Section.fields at hf
  rw [mem_append, mem_append] at hf
  rcases hf with hf | hf | hf
  · exact hs.fields f hf
  · cases hindex : s.index with
    | none =>
      rw [hindex] at hf
      cases hf
    | some i =>
      rw [hindex, map_some, toList_some, mem_singleton] at hf
      rw [hf]
      exact hs.index i hindex
  · split at hf
    · rw [mem_cons, mem_singleton] at hf
      rcases hf with rfl | rfl
      · exact hold
      · exact hnew
    · cases hf

theorem Section.Printable.lines {s : Section} (hs : s.Printable) : ∀ l ∈ s.lines, OneLine l := by
  intro l hl
  unfold Section.lines at hl
  rw [mem_cons, mem_append] at hl
  rcases hl with rfl | hl | hl
  · unfold gitLine
    exact oneLine_append (by decide) (oneLine_append hs.source (oneLine_append (by decide) hs.path))
  · exact hs.extended l hl
  · unfold hunkLines at hl
    rw [mem_flatMap] at hl
    obtain ⟨h, hh, hl⟩ := hl
    exact (hs.hunks h hh).lines l hl

theorem oneLine_linesOf {d : Diff} (hd : ∀ s ∈ d, s.Printable) : ∀ l ∈ linesOf d, OneLine l := by
  intro l hl
  unfold linesOf at hl
  rw [mem_flatMap] at hl
  obtain ⟨s, hs, hl⟩ := hl
  exact (hd s hs).lines l hl

theorem length_le_linesOf (d : Diff) : d.length ≤ (linesOf d).length := by
  induction d with
  | nil => exact Nat.zero_le _
  | cons s d ih =>
    have hlines : linesOf (s :: d) = s.lines ++ linesOf d := flatMap_cons
    have hone : 1 ≤ s.lines.length := by
      unfold Section.lines
      rw [length_cons]
      omega
    rw [hlines, length_append, length_cons]
    omega

theorem read_textOf {d : Diff} (hd : ∀ s ∈ d, s.Printable) :
    read (textOf d) = some (d.map Section.plain) := by
  unfold read textOf
  rw [textLines_terminated (oneLine_linesOf hd)]
  exact readSections_lines d _ (length_le_linesOf d)

end Ds4Studio.UnifiedDiff
