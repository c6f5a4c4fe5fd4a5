import Ds4Studio.Lib.UnifiedDiff
import Mathlib.Data.List.Nodup

/-!
What a diff does to a tree of files: each hunk finds its old lines where its header says and puts
its new lines there. A hunk that gives back its old lines can be left out.
-/

namespace Ds4Studio.UnifiedDiff

open List

/-! ### Files -/

/-- A line of a file, and whether a newline ends it. -/
abbrev FileLine := Line × Bool

/-- Only the last line may lack its newline. -/
def Proper (lines : List FileLine) : Prop := ∀ l ∈ lines.dropLast, l.2 = true

instance (lines : List FileLine) : Decidable (Proper lines) :=
  inferInstanceAs (Decidable (∀ l ∈ lines.dropLast, l.2 = true))

structure File where
  lines : List FileLine
  proper : Proper lines
deriving DecidableEq

theorem proper_nil : Proper [] := fun _ h => nomatch h

def File.empty : File := ⟨[], proper_nil⟩

def File.of (lines : List FileLine) : Option File :=
  if h : Proper lines then some ⟨lines, h⟩ else none

structure Entry where
  mode : Line
  file : File
deriving DecidableEq

abbrev Tree := Line → Option Entry

/-! ### Hunks -/

def BodyLine.fileLine (l : BodyLine) : FileLine := (l.text, !l.bare)

def oldSide (body : List BodyLine) : List FileLine :=
  (body.filter fun l => l.kind ≠ .added).map BodyLine.fileLine

def newSide (body : List BodyLine) : List FileLine :=
  (body.filter fun l => l.kind ≠ .removed).map BodyLine.fileLine

def Hunk.old (h : Hunk) : List FileLine := oldSide h.body

def Hunk.new (h : Hunk) : List FileLine := newSide h.body

/-- How many lines of the old file stand in front of a hunk. -/
def Hunk.position (h : Hunk) : ℕ := if oldCount h.body = 0 then h.oldStart else h.oldStart - 1

def Hunk.newPosition (h : Hunk) : ℕ := if newCount h.body = 0 then h.newStart else h.newStart - 1

/-- The file from a line on, with `side` of each hunk in place of its old lines. -/
def replaceHunks (side : Hunk → List FileLine) :
    ℕ → List FileLine → List Hunk → Option (List FileLine)
  | _, file, [] => some file
  | line, file, h :: hunks =>
      let rest := file.drop (h.position - line)
      if line ≤ h.position ∧ h.position - line ≤ file.length ∧ h.old.isPrefixOf rest then
        (replaceHunks side (h.position + h.old.length) (rest.drop h.old.length) hunks).map
          fun out => file.take (h.position - line) ++ (side h ++ out)
      else none

def applyHunks (file : List FileLine) (hunks : List Hunk) : Option (List FileLine) :=
  replaceHunks Hunk.new 0 file hunks

/-! ### Sections and diffs -/

/-- The file with the mode that a section gives it. -/
def Section.edit (s : Section) (modes : Option (Line × Line)) (e : Entry) : Option Entry := do
  let lines ← applyHunks e.file.lines s.hunks
  let file ← File.of lines
  return ⟨(modes.map Prod.snd).getD e.mode, file⟩

/-- What a section makes of the files at its source and at its path. A section that only modifies
has to have a hunk or a change of the mode. -/
def Section.effect (s : Section) (source target : Option Entry) :
    Option (Option Entry × Option Entry) :=
  match s.change, source, target with
  | .modified modes, _, some e =>
      if s.hunks = [] ∧ modes = none then none
      else (s.edit modes e).map fun e' => (none, some e')
  | .created mode, _, none =>
      (s.edit none ⟨mode, File.empty⟩).map fun e' => (none, some e')
  | .deleted _, _, some e =>
      if applyHunks e.file.lines s.hunks = some [] then some (none, none) else none
  | .renamed modes _ _, some e, none => (s.edit modes e).map fun e' => (none, some e')
  | .copied modes _ _, some e, none => (s.edit modes e).map fun e' => (some e, some e')
  | _, _, _ => none

def Section.apply (s : Section) (t : Tree) : Option Tree :=
  (s.effect (t s.source) (t s.path)).map fun after =>
    Function.update (Function.update t s.source after.1) s.path after.2

def applyDiff : Diff → Tree → Option Tree
  | [], t => some t
  | s :: d, t => (s.apply t).bind (applyDiff d)

/-- What a text does to a tree. -/
def applyText (text : Line) (t : Tree) : Option Tree := (read text).bind fun d => applyDiff d t

/-! ### Diffs that are well formed -/

/-- The hunks stand in the order of the old file, behind a line. -/
def Ordered : ℕ → List Hunk → Prop
  | _, [] => True
  | line, h :: hunks => line ≤ h.position ∧ Ordered (h.position + h.old.length) hunks

/-- The starts in the new file are those of the old one, moved by what the hunks in front add. -/
def Aligned : ℕ → ℕ → List Hunk → Prop
  | _, _, [] => True
  | old, new, h :: hunks =>
      h.newPosition + old = h.position + new ∧
        Aligned (old + h.old.length) (new + h.new.length) hunks

def Change.Fits (path : Line) (hunks : List Hunk) : Change → Prop
  | .modified modes => hunks ≠ [] ∨ modes ≠ none
  | .created _ =>
      hunks.length ≤ 1 ∧ ∀ h ∈ hunks, h.oldStart = 0 ∧ ∀ l ∈ h.body, l.kind = .added
  | .deleted _ =>
      hunks.length ≤ 1 ∧ ∀ h ∈ hunks, h.oldStart = 1 ∧ ∀ l ∈ h.body, l.kind = .removed
  | .renamed _ _ source | .copied _ _ source => source ≠ path

structure Section.WellFormed (s : Section) : Prop extends s.Printable where
  named : s.named = true ↔ s.hunks ≠ []
  bodies : ∀ h ∈ s.hunks, h.body ≠ []
  starts : ∀ h ∈ s.hunks, (oldCount h.body ≠ 0 → h.oldStart ≠ 0) ∧
    (newCount h.body ≠ 0 → h.newStart ≠ 0)
  ordered : Ordered 0 s.hunks
  aligned : Aligned 0 0 s.hunks
  /-- A line without a newline is the last one of its file. -/
  whole : ∀ h ∈ s.hunks.dropLast, ∀ l ∈ h.body, l.bare = false
  last : ∀ h ∈ s.hunks.getLast?, Proper h.old ∧ Proper h.new
  change_fits : s.change.Fits s.path s.hunks

/-- The paths of the files that a section is about. -/
def Section.touches (s : Section) : List Line :=
  if s.source = s.path then [s.path] else [s.source, s.path]

structure WellFormed (d : Diff) : Prop where
  nonempty : d ≠ []
  sections : ∀ s ∈ d, s.WellFormed
  /-- There is one section for a file. -/
  touches : (d.flatMap Section.touches).Nodup

/-! ### Replacing hunks -/

variable {side : Hunk → List FileLine} {hunks : List Hunk}

/-- The first hunk cuts the file in what stands in front of it, its old lines and the rest. -/
theorem replaceHunks_cons_iff {line : ℕ} {file out : List FileLine} {h : Hunk} :
    replaceHunks side line file (h :: hunks) = some out ↔
      ∃ front rest more, file = front ++ (h.old ++ rest) ∧ line + front.length = h.position ∧
        replaceHunks side (h.position + h.old.length) rest hunks = some more ∧
        out = front ++ (side h ++ more) := by
  rw [replaceHunks]
  constructor
  · intro hsome
    split at hsome
    · rename_i hfits
      obtain ⟨hline, hlength, hprefix⟩ := hfits
      obtain ⟨more, hmore, hout⟩ := Option.map_eq_some_iff.mp hsome
      have hsplit := prefix_iff_eq_append.mp ( isPrefixOf_iff_prefix.mp hprefix)
      refine ⟨file.take (h.position - line), _, more, ?_, ?_, hmore, hout.symm⟩
      · rw [hsplit, take_append_drop]
      · rw [length_take]
        omega
    · cases hsome
  · rintro ⟨front, rest, more, rfl, hfront, hmore, rfl⟩
    have hskip : h.position - line = front.length := by omega
    rw [hskip, drop_left, take_left, drop_left, hmore, if_pos]
    · rfl
    · refine ⟨by omega, ?_, ?_⟩
      · rw [length_append]
        omega
      · exact isPrefixOf_iff_prefix.mpr (prefix_append _ _)

theorem replaceHunks_shift {line : ℕ} {front rest out : List FileLine}
    (h : replaceHunks side (line + front.length) rest hunks = some out) :
    replaceHunks side line (front ++ rest) hunks = some (front ++ out) := by
  cases hunks with
  | nil =>
    rw [replaceHunks, Option.some_inj] at h
    rw [replaceHunks, h]
  | cons hunk hunks =>
    obtain ⟨mid, rest', more, rfl, hposition, hmore, rfl⟩ := replaceHunks_cons_iff.mp h
    refine replaceHunks_cons_iff.mpr ⟨front ++ mid, rest', more, ?_, ?_, hmore, ?_⟩
    · rw [append_assoc]
    · rw [length_append]
      omega
    · rw [append_assoc]

theorem replaceHunks_filter (keep : Hunk → Bool) :
    ∀ {line : ℕ} {file out : List FileLine},
      replaceHunks (fun h => if keep h then side h else h.old) line file hunks = some out →
        replaceHunks side line file (hunks.filter keep) = some out := by
  induction hunks with
  | nil => exact fun h => h
  | cons h hunks ih =>
    intro line file out hout
    obtain ⟨front, rest, more, rfl, hposition, hmore, rfl⟩ := replaceHunks_cons_iff.mp hout
    have hrest := ih hmore
    cases hkeep : keep h with
    | true =>
      rw [filter_cons_of_pos hkeep]
      refine replaceHunks_cons_iff.mpr ⟨front, rest, more, rfl, hposition, hrest, ?_⟩
      rw [if_pos rfl]
    | false =>
      rw [filter_cons_of_neg (by rw [hkeep]; exact Bool.false_ne_true), ← append_assoc, ← append_assoc]
      refine replaceHunks_shift ?_
      rw [length_append, ← Nat.add_assoc, hposition]
      exact hrest

/-- Which lines are put in does not matter for whether the hunks fit, and shows in the outcome. -/
theorem replaceHunks_side (side' : Hunk → List FileLine)
    (hlength : ∀ h ∈ hunks, (side h).length = (side' h).length) :
    ∀ {line : ℕ} {file out : List FileLine}, replaceHunks side line file hunks = some out →
      ∃ out', replaceHunks side' line file hunks = some out' ∧
        (out = out' ↔ ∀ h ∈ hunks, side h = side' h) := by
  induction hunks with
  | nil =>
    intro line file out hout
    refine ⟨file, rfl, ?_⟩
    rw [replaceHunks, Option.some_inj] at hout
    rw [hout]
    simp
  | cons h hunks ih =>
    intro line file out hout
    obtain ⟨front, rest, more, rfl, hposition, hmore, rfl⟩ := replaceHunks_cons_iff.mp hout
    obtain ⟨more', hmore', hsame⟩ := ih (fun g hg => hlength g (mem_cons_of_mem h hg)) hmore
    refine ⟨front ++ (side' h ++ more'), ?_, ?_⟩
    · exact replaceHunks_cons_iff.mpr ⟨front, rest, more', rfl, hposition, hmore', rfl⟩
    · rw [append_right_inj, forall_mem_cons, ← hsame]
      constructor
      · intro hout
        exact append_inj hout (hlength h mem_cons_self)
      · intro hboth
        rw [hboth.1, hboth.2]

/-! ### The file that a section is written for -/

def blanks (n : ℕ) : List FileLine := List.replicate n ([], true)

/-- Blank lines up to each hunk, and `side` of it. -/
def layout (side : Hunk → List FileLine) : ℕ → List Hunk → List FileLine
  | _, [] => []
  | line, h :: hunks =>
      blanks (h.position - line) ++
        (side h ++ layout side (h.position + h.old.length) hunks)

theorem replaceHunks_layout : ∀ {line : ℕ}, Ordered line hunks →
    replaceHunks side line (layout Hunk.old line hunks) hunks = some (layout side line hunks) := by
  induction hunks with
  | nil => exact fun _ => rfl
  | cons h hunks ih =>
    intro line hordered
    refine replaceHunks_cons_iff.mpr ⟨_, _, _, rfl, ?_, ih hordered.2, rfl⟩
    unfold blanks
    rw [length_replicate]
    have hline := hordered.1
    omega

theorem proper_append {front back : List FileLine} (hfront : ∀ l ∈ front, l.2 = true)
    (hback : Proper back) : Proper (front ++ back) := by
  intro l hl
  by_cases hempty : back = []
  · rw [hempty, append_nil] at hl
    exact hfront l (dropLast_subset front hl)
  · rw [dropLast_append_of_ne_nil hempty, mem_append] at hl
    exact hl.elim (hfront l) (hback l)

theorem proper_layout (hwhole : ∀ h ∈ hunks.dropLast, ∀ l ∈ side h, l.2 = true)
    (hlast : ∀ h ∈ hunks.getLast?, Proper (side h)) : ∀ line, Proper (layout side line hunks) := by
  have hblanks : ∀ n, ∀ l ∈ blanks n, l.2 = true := by
    intro n l hl
    rw [eq_of_mem_replicate hl]
  induction hunks with
  | nil =>
    intro line l hl
    cases hl
  | cons h hunks ih =>
    intro line
    refine proper_append (hblanks _) ?_
    cases hunks with
    | nil =>
      rw [layout, append_nil]
      exact hlast h rfl
    | cons g hunks =>
      refine proper_append (hwhole h mem_cons_self) (ih ?_ ?_ _)
      · intro f hf
        exact hwhole f (mem_cons_of_mem h hf)
      · intro f hf
        refine hlast f ?_
        exact hf

variable {body : List BodyLine}

theorem mem_side {l : FileLine} (hwhole : ∀ b ∈ body, b.bare = false)
    (h : l ∈ oldSide body ∨ l ∈ newSide body) : l.2 = true := by
  unfold oldSide newSide at h
  rw [mem_map, mem_map] at h
  rcases h with ⟨b, hb, rfl⟩ | ⟨b, hb, rfl⟩
  · rw [BodyLine.fileLine, hwhole b (mem_of_mem_filter hb)]
    rfl
  · rw [BodyLine.fileLine, hwhole b (mem_of_mem_filter hb)]
    rfl

variable {s : Section}

theorem Section.WellFormed.proper_old (hs : s.WellFormed) : Proper (layout Hunk.old 0 s.hunks) :=
  proper_layout (fun h hh _ hl => mem_side (hs.whole h hh) (.inl hl))
    (fun h hh => (hs.last h hh).1) 0

theorem Section.WellFormed.proper_new (hs : s.WellFormed) : Proper (layout Hunk.new 0 s.hunks) :=
  proper_layout (fun h hh _ hl => mem_side (hs.whole h hh) (.inr hl))
    (fun h hh => (hs.last h hh).2) 0

/-- The file that a section is written for. -/
def Section.before (s : Section) : Option Entry :=
  match s.change with
  | .created _ => none
  | _ => (File.of (layout Hunk.old 0 s.hunks)).map fun file => ⟨"100644".toList, file⟩

theorem File.of_proper {lines : List FileLine} (h : Proper lines) :
    File.of lines = some ⟨lines, h⟩ := dif_pos h

theorem File.lines_of {lines : List FileLine} {file : File} (h : File.of lines = some file) :
    file.lines = lines := by
  unfold File.of at h
  split at h
  · rw [← Option.some.inj h]
  · cases h

theorem oldSide_added (h : ∀ l ∈ body, l.kind = .added) : oldSide body = [] := by
  unfold oldSide
  rw [map_eq_nil_iff, filter_eq_nil_iff]
  intro l hl
  rw [h l hl]
  decide

theorem newSide_removed (h : ∀ l ∈ body, l.kind = .removed) : newSide body = [] := by
  unfold newSide
  rw [map_eq_nil_iff, filter_eq_nil_iff]
  intro l hl
  rw [h l hl]
  decide

theorem oldCount_added (h : ∀ l ∈ body, l.kind = .added) : oldCount body = 0 := by
  unfold oldCount
  rw [countP_eq_zero]
  intro l hl
  rw [h l hl]
  decide

theorem oldCount_removed (hne : body ≠ []) (h : ∀ l ∈ body, l.kind = .removed) :
    oldCount body ≠ 0 := by
  obtain ⟨l, hl⟩ := exists_mem_of_ne_nil body hne
  have hpos : 0 < oldCount body := by
    unfold oldCount
    rw [countP_pos_iff]
    refine ⟨l, hl, ?_⟩
    rw [h l hl]
    decide
  exact Nat.ne_of_gt hpos

theorem layout_created (hone : hunks.length ≤ 1)
    (hall : ∀ h ∈ hunks, h.oldStart = 0 ∧ ∀ l ∈ h.body, l.kind = .added) :
    layout Hunk.old 0 hunks = [] := by
  cases hunks with
  | nil => rfl
  | cons h hunks =>
    obtain rfl : hunks = [] := length_eq_zero_iff.mp (by
      rw [length_cons] at hone
      omega)
    obtain ⟨hstart, hadded⟩ := hall h mem_cons_self
    have hposition : h.position = 0 := by
      unfold Hunk.position
      rw [oldCount_added hadded, hstart]
      rfl
    have hold : h.old = [] := oldSide_added hadded
    rw [layout, hposition, hold]
    rfl

theorem layout_deleted (hone : hunks.length ≤ 1)
    (hall : ∀ h ∈ hunks, h.oldStart = 1 ∧ ∀ l ∈ h.body, l.kind = .removed)
    (hpositions : ∀ h ∈ hunks, h.position = 0) : layout Hunk.new 0 hunks = [] := by
  cases hunks with
  | nil => rfl
  | cons h hunks =>
    obtain rfl : hunks = [] := length_eq_zero_iff.mp (by
      rw [length_cons] at hone
      omega)
    have hnew : h.new = [] := newSide_removed (hall h mem_cons_self).2
    rw [layout, hpositions h mem_cons_self, hnew]
    rfl

theorem edit_of_applies (hs : s.WellFormed) (modes : Option (Line × Line)) {e : Entry}
    (he : e.file.lines = layout Hunk.old 0 s.hunks) : ∃ e', s.edit modes e = some e' := by
  have happly : applyHunks (layout Hunk.old 0 s.hunks) s.hunks =
      some (layout Hunk.new 0 s.hunks) := replaceHunks_layout hs.ordered
  unfold Section.edit
  rw [he, happly]
  simp only [Option.bind_eq_bind, Option.bind_some, File.of_proper hs.proper_new]
  exact ⟨_, rfl⟩

theorem Section.before_eq (hs : s.WellFormed) (hne : ∀ mode, s.change ≠ .created mode) :
    s.before = some ⟨"100644".toList, ⟨layout Hunk.old 0 s.hunks, hs.proper_old⟩⟩ := by
  unfold Section.before
  split
  · rename_i mode hchange
    exact absurd hchange (hne mode)
  · rw [File.of_proper hs.proper_old]
    rfl

theorem Section.WellFormed.effect_before (hs : s.WellFormed) :
    ∃ after, s.effect s.before (if s.path = s.source then s.before else none) = some after := by
  have hfits := hs.change_fits
  cases hchange : s.change with
  | modified modes =>
    have hsource : s.source = s.path := by
      unfold Section.source
      rw [hchange]
    rw [hchange] at hfits
    rw [if_pos hsource.symm, Section.before_eq hs (by rw [hchange]; exact fun _ h => nomatch h)]
    obtain ⟨e', he'⟩ := edit_of_applies hs modes
      (e := ⟨"100644".toList, ⟨layout Hunk.old 0 s.hunks, hs.proper_old⟩⟩) rfl
    unfold Section.effect
    rw [hchange]
    dsimp only
    rw [if_neg, he']
    · exact ⟨_, rfl⟩
    · rintro ⟨hnil, hnone⟩
      exact hfits.elim (fun hne => hne hnil) (fun hne => hne hnone)
  | created mode =>
    have hbefore : s.before = none := by
      unfold Section.before
      rw [hchange]
    rw [hchange] at hfits
    obtain ⟨e', he'⟩ := edit_of_applies hs none (e := ⟨mode, File.empty⟩)
      (layout_created hfits.1 hfits.2).symm
    rw [hbefore, ite_self]
    unfold Section.effect
    rw [hchange]
    dsimp only
    rw [he']
    exact ⟨_, rfl⟩
  | deleted mode =>
    have hsource : s.source = s.path := by
      unfold Section.source
      rw [hchange]
    rw [hchange] at hfits
    have hpositions : ∀ h ∈ s.hunks, h.position = 0 := by
      intro h hh
      obtain ⟨hstart, hremoved⟩ := hfits.2 h hh
      have hcount := oldCount_removed (hs.bodies h hh) hremoved
      unfold Hunk.position
      rw [if_neg hcount, hstart]
    have happly : applyHunks (layout Hunk.old 0 s.hunks) s.hunks = some [] := by
      rw [← layout_deleted hfits.1 hfits.2 hpositions]
      exact replaceHunks_layout hs.ordered
    rw [if_pos hsource.symm, Section.before_eq hs (by rw [hchange]; exact fun _ h => nomatch h)]
    unfold Section.effect
    rw [hchange]
    dsimp only
    rw [if_pos happly]
    exact ⟨_, rfl⟩
  | renamed modes similarity source | copied modes similarity source =>
    have hsource : s.source = source := by
      unfold Section.source
      rw [hchange]
    rw [hchange] at hfits
    have hne : ¬ s.path = s.source := by
      rw [hsource]
      exact fun h => hfits h.symm
    rw [if_neg hne, Section.before_eq hs (by rw [hchange]; exact fun _ h => nomatch h)]
    obtain ⟨e', he'⟩ := edit_of_applies hs modes
      (e := ⟨"100644".toList, ⟨layout Hunk.old 0 s.hunks, hs.proper_old⟩⟩) rfl
    unfold Section.effect
    rw [hchange]
    dsimp only
    rw [he']
    exact ⟨_, rfl⟩

/-! ### Diffs -/

/-- The effect of a section leads from one tree to the other at its own paths. -/
def EffectOn (s : Section) (t t' : Tree) : Prop :=
  ∃ a, s.effect (t s.source) (t s.path) = some (a, t' s.path) ∧
    (s.source ≠ s.path → t' s.source = a)

theorem mem_touches {path : Line} : path ∈ s.touches ↔ path = s.source ∨ path = s.path := by
  unfold Section.touches
  split
  · rename_i hsame
    rw [mem_singleton, hsame, or_self]
  · rw [mem_cons, mem_singleton]

theorem effectOn_congr {t u t' u' : Tree} (h : ∀ path ∈ s.touches, t path = u path)
    (h' : ∀ path ∈ s.touches, t' path = u' path) (hs : EffectOn s t t') : EffectOn s u u' := by
  obtain ⟨a, heffect, hsource⟩ := hs
  have hs₁ : s.source ∈ s.touches := mem_touches.mpr (.inl rfl)
  have hs₂ : s.path ∈ s.touches := mem_touches.mpr (.inr rfl)
  rw [h _ hs₁, h _ hs₂, h' _ hs₂] at heffect
  rw [h' _ hs₁] at hsource
  exact ⟨a, heffect, hsource⟩

theorem apply_eq_some_iff {t t' : Tree} :
    s.apply t = some t' ↔ EffectOn s t t' ∧ ∀ path, path ∉ s.touches → t' path = t path := by
  unfold Section.apply EffectOn
  rw [Option.map_eq_some_iff]
  constructor
  · rintro ⟨after, hafter, rfl⟩
    refine ⟨⟨after.1, ?_, fun hne => ?_⟩, fun path hpath => ?_⟩
    · rw [Function.update_self]
      exact hafter
    · rw [Function.update_of_ne hne, Function.update_self]
    · rw [mem_touches, not_or] at hpath
      rw [Function.update_of_ne hpath.2, Function.update_of_ne hpath.1]
  · rintro ⟨⟨a, heffect, hsource⟩, hframe⟩
    refine ⟨(a, t' s.path), heffect, ?_⟩
    funext path
    by_cases hpath : path = s.path
    · rw [hpath, Function.update_self]
    · rw [Function.update_of_ne hpath]
      by_cases hpath' : path = s.source
      · rw [hpath', Function.update_self, hsource fun heq => hpath (hpath'.trans heq)]
      · rw [Function.update_of_ne hpath']
        exact (hframe path fun hmem => (mem_touches.mp hmem).elim hpath' hpath).symm

variable {d : Diff}

theorem applyDiff_eq_some_iff (hd : (d.flatMap Section.touches).Nodup) :
    ∀ {t t' : Tree}, applyDiff d t = some t' ↔
      (∀ s ∈ d, EffectOn s t t') ∧
        ∀ path, path ∉ d.flatMap Section.touches → t' path = t path := by
  induction d with
  | nil =>
    intro t t'
    rw [applyDiff, Option.some_inj]
    constructor
    · rintro rfl
      exact ⟨fun s hs => absurd hs not_mem_nil, fun _ _ => rfl⟩
    · intro h
      exact funext fun path => (h.2 path not_mem_nil).symm
  | cons s d ih =>
    intro t t'
    rw [flatMap_cons, nodup_append] at hd
    obtain ⟨-, hnodup, hapart⟩ := hd
    have hown : ∀ path ∈ s.touches, path ∉ d.flatMap Section.touches :=
      fun path hpath hmem => hapart path hpath path hmem rfl
    have hother : ∀ u ∈ d, ∀ path ∈ u.touches, path ∉ s.touches := fun u hu path hpath hmem =>
      hown path hmem (mem_flatMap.mpr ⟨u, hu, hpath⟩)
    rw [applyDiff, Option.bind_eq_some_iff]
    constructor
    · rintro ⟨mid, hmid, hrest⟩
      obtain ⟨heffect, hframe⟩ := apply_eq_some_iff.mp hmid
      obtain ⟨heffects, hframes⟩ := (ih hnodup).mp hrest
      refine ⟨?_, ?_⟩
      · rw [forall_mem_cons]
        refine ⟨?_, fun u hu => ?_⟩
        · exact effectOn_congr (fun _ _ => rfl) (fun path hpath => (hframes path
            (hown path hpath)).symm) heffect
        · exact effectOn_congr (fun path hpath => hframe path (hother u hu path hpath))
            (fun _ _ => rfl) (heffects u hu)
      · intro path hpath
        rw [flatMap_cons, mem_append, not_or] at hpath
        rw [hframes path hpath.2, hframe path hpath.1]
    · rintro ⟨heffects, hframes⟩
      rw [forall_mem_cons] at heffects
      refine ⟨fun path => if path ∈ s.touches then t' path else t path, ?_, ?_⟩
      · refine apply_eq_some_iff.mpr ⟨?_, fun path hpath => if_neg hpath⟩
        exact effectOn_congr (fun _ _ => rfl) (fun path hpath => (if_pos hpath).symm) heffects.1
      · refine (ih hnodup).mpr ⟨fun u hu => ?_, fun path hpath => ?_⟩
        · exact effectOn_congr (fun path hpath => (if_neg (hother u hu path hpath)).symm)
            (fun _ _ => rfl) (heffects.2 u hu)
        · by_cases hmem : path ∈ s.touches
          · exact (if_pos hmem).symm
          · rw [if_neg hmem]
            refine hframes path ?_
            rw [flatMap_cons, mem_append, not_or]
            exact ⟨hmem, hpath⟩

theorem paths_nodup (hd : (d.flatMap Section.touches).Nodup) : (d.map Section.path).Nodup := by
  induction d with
  | nil => exact nodup_nil
  | cons s d ih =>
    rw [flatMap_cons, nodup_append] at hd
    rw [map_cons, nodup_cons]
    refine ⟨fun hmem => ?_, ih hd.2.1⟩
    obtain ⟨u, hu, hsame⟩ := mem_map.mp hmem
    exact hd.2.2 s.path (mem_touches.mpr (.inr rfl)) u.path
      (mem_flatMap.mpr ⟨u, hu, mem_touches.mpr (.inr rfl)⟩) hsame.symm

/-- The tree that a diff is written for. -/
def treeBefore (d : Diff) : Tree := fun path =>
  (d.find? fun s => path ∈ s.touches).bind fun s => if path = s.source then s.before else none

theorem find_touches (hd : (d.flatMap Section.touches).Nodup) (hs : s ∈ d) {path : Line}
    (hpath : path ∈ s.touches) : (d.find? fun s => path ∈ s.touches) = some s := by
  induction d with
  | nil => cases hs
  | cons u d ih =>
    rw [flatMap_cons, nodup_append] at hd
    rw [mem_cons] at hs
    rcases hs with rfl | hs
    · exact find?_cons_of_pos (by simpa using hpath)
    · have hne : path ∉ u.touches := fun hmem =>
        hd.2.2 path hmem path (mem_flatMap.mpr ⟨s, hs, hpath⟩) rfl
      rw [find?_cons_of_neg (by simpa using hne)]
      exact ih hd.2.1 hs

theorem treeBefore_touches (hd : (d.flatMap Section.touches).Nodup) (hs : s ∈ d) :
    treeBefore d s.source = s.before ∧
      treeBefore d s.path = if s.path = s.source then s.before else none := by
  unfold treeBefore
  constructor
  · rw [find_touches hd hs (mem_touches.mpr (.inl rfl)), Option.bind_some, if_pos rfl]
  · rw [find_touches hd hs (mem_touches.mpr (.inr rfl)), Option.bind_some]

theorem WellFormed.applies (hd : WellFormed d) : ∃ t', applyDiff d (treeBefore d) = some t' := by
  refine ⟨fun path => match d.find? fun s => path ∈ s.touches with
    | none => treeBefore d path
    | some s =>
        match s.effect (treeBefore d s.source) (treeBefore d s.path) with
        | none => none
        | some after => if path = s.path then after.2 else after.1, ?_⟩
  rw [applyDiff_eq_some_iff hd.touches]
  constructor
  · intro s hs
    obtain ⟨hsource, hpath⟩ := treeBefore_touches hd.touches hs
    obtain ⟨after, hafter⟩ := (hd.sections s hs).effect_before
    rw [← hpath, ← hsource] at hafter
    refine ⟨after.1, ?_, fun hne => ?_⟩
    · dsimp only
      rw [find_touches hd.touches hs (mem_touches.mpr (.inr rfl))]
      dsimp only
      rw [hafter]
      dsimp only
      rw [if_pos rfl]
    · dsimp only
      rw [find_touches hd.touches hs (mem_touches.mpr (.inl rfl))]
      dsimp only
      rw [hafter]
      dsimp only
      rw [if_neg hne]
  · intro path hpath
    have hnone : (d.find? fun s => path ∈ s.touches) = none := by
      rw [find?_eq_none]
      intro s hs hmem
      exact hpath (mem_flatMap.mpr ⟨s, hs, of_decide_eq_true hmem⟩)
    rw [hnone]

/-! ### Counts of one -/

theorem replaceHunks_map (f : Hunk → Hunk) (hbody : ∀ h, (f h).body = h.body)
    (hstart : ∀ h, (f h).oldStart = h.oldStart) :
    ∀ {line : ℕ} {file : List FileLine},
      replaceHunks Hunk.new line file (hunks.map f) = replaceHunks Hunk.new line file hunks := by
  induction hunks with
  | nil => exact rfl
  | cons h hunks ih =>
    intro line file
    have hposition : (f h).position = h.position := by
      unfold Hunk.position
      rw [hbody, hstart]
    have hold : (f h).old = h.old := by
      unfold Hunk.old
      rw [hbody]
    have hnew : (f h).new = h.new := by
      unfold Hunk.new
      rw [hbody]
    rw [map_cons, replaceHunks, replaceHunks, hposition, hold, hnew, ih]

theorem effect_map (f : Hunk → Hunk) (hbody : ∀ h, (f h).body = h.body)
    (hstart : ∀ h, (f h).oldStart = h.oldStart) (s : Section) (source target : Option Entry) :
    Section.effect { s with hunks := s.hunks.map f } source target = s.effect source target := by
  have happly : ∀ file, applyHunks file (s.hunks.map f) = applyHunks file s.hunks :=
    fun _ => replaceHunks_map f hbody hstart
  have hnil : (s.hunks.map f = []) = (s.hunks = []) := propext map_eq_nil_iff
  unfold Section.effect Section.edit
  simp only [happly, hnil]

theorem applyDiff_map (f : Section → Section)
    (hpath : ∀ s, (f s).source = s.source ∧ (f s).path = s.path)
    (heffect : ∀ s source target, (f s).effect source target = s.effect source target) (d : Diff) :
    ∀ t, applyDiff (d.map f) t = applyDiff d t := by
  induction d with
  | nil => exact fun _ => rfl
  | cons s d ih =>
    intro t
    rw [map_cons, applyDiff]
    unfold Section.apply
    rw [(hpath s).1, (hpath s).2, heffect]
    congr 1
    exact funext ih

theorem applyText_textOf (hd : ∀ s ∈ d, s.Printable) (t : Tree) :
    applyText (textOf d) t = applyDiff d t := by
  unfold applyText
  rw [read_textOf hd]
  exact applyDiff_map Section.plain (fun _ => ⟨rfl, rfl⟩)
    (fun s => effect_map Hunk.plain (fun _ => rfl) (fun _ => rfl) s) d t

end Ds4Studio.UnifiedDiff
