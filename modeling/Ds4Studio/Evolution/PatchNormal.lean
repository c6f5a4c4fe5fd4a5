import Ds4Studio.Lib.PatchApply

/-!
Normalising the patch of a model: hunk headers are counted again and hunks whose removed lines are
their added lines are dropped. On a well-formed diff this keeps the meaning just if such a hunk
changes nothing, and is not all there is of its section.
-/

namespace Ds4Studio.Evolution.PatchNormal

open List UnifiedDiff

/-! ### The source -/

/-- `splitUnifiedPatchSections`, behind the lines of the current section. -/
def splitSections (current : List Line) : List Line → List (List Line)
  | [] => if current = [] then [] else [current]
  | l :: rest =>
      if startsWith "diff --git ".toList l ∧ current ≠ [] then current :: splitSections [l] rest
      else splitSections (current ++ [l]) rest

/-- `formatUnifiedDiffRange` -/
def formatRange (start count : ℕ) : Line :=
  if count = 1 then Nat.toDigits 10 start
  else Nat.toDigits 10 start ++ ',' :: Nat.toDigits 10 count

/-- What a dot of a pattern does not match. -/
def isTerminator (c : Char) : Bool :=
  c = '\n' || c = '\r' || c = Char.ofNat 0x2028 || c = Char.ofNat 0x2029

/-- The match of a header of a hunk. Its numbers are those of lines of a file, which `Number` reads
exactly. -/
def matchHeader (l : Line) : Option Header :=
  (readHeader l).filter fun h => !h.heading.any isTerminator

/-- The inner loop of `normalizeUnifiedDiffHunkCounts`: the old and new lines of a hunk and what
becomes of the lines behind its header. -/
def scan (expectedOld expectedNew : ℕ) : ℕ → ℕ → List Line → (ℕ × ℕ) × List Line
  | old, new, [] => ((old, new), [])
  | old, new, line :: rest =>
      if startsWith "@@ ".toList line then ((old, new), line :: rest)
      else
        let line :=
          if line = [] ∧ rest ≠ [] ∧ old < expectedOld ∧ new < expectedNew then [' '] else line
        let after := fun old new =>
          let r := scan expectedOld expectedNew old new rest
          (r.1, line :: r.2)
        if line = marker then after old new
        else if startsWith [' '] line then after (old + 1) (new + 1)
        else if startsWith ['-'] line then after (old + 1) new
        else if startsWith ['+'] line then after old (new + 1)
        else ((old, new), line :: rest)

/-- `normalizeUnifiedDiffHunkCounts` -/
def recount : ℕ → List Line → List Line
  | fuel + 1, l :: rest =>
      match matchHeader l with
      | none => l :: recount fuel rest
      | some h =>
          let r := scan h.oldCount h.newCount 0 0 rest
          ("@@ -".toList ++ (formatRange h.oldStart r.1.1 ++ (" +".toList ++
            (formatRange h.newStart r.1.2 ++ (" @@".toList ++ h.heading))))) :: recount fuel r.2
  | _, _ => []

/-- The removed and the added lines of a body are the same. -/
def isNoop (body : List Line) : Bool :=
  let removed := (body.filter (startsWith ['-'])).map (drop 1)
  let added := (body.filter (startsWith ['+'])).map (drop 1)
  removed ≠ [] && removed = added

/-- `dropNoopUnifiedDiffHunks` -/
def dropNoop : ℕ → List Line → List Line
  | fuel + 1, l :: rest =>
      if startsWith "@@ ".toList l then
        let body := rest.takeWhile fun line => !startsWith "@@ ".toList line
        let after := rest.dropWhile fun line => !startsWith "@@ ".toList line
        if isNoop body then dropNoop fuel after else l :: (body ++ dropNoop fuel after)
      else l :: dropNoop fuel rest
  | _, _ => []

def repair (lines : List Line) : List Line :=
  let counted := recount lines.length lines
  dropNoop counted.length counted

def canonical (lines : List Line) : Line :=
  let text := [newline].intercalate lines
  if text.getLast? = some newline then text else text ++ [newline]

/-- The loop of `normalizeUnifiedPatchText`, with the texts that it has seen. -/
def joinSections (seen : List Line) : List (List Line) → Line
  | [] => []
  | lines :: rest =>
      let text := canonical (repair lines)
      if startsWith "diff --git ".toList ((repair lines).headD []) then
        if seen.contains text then joinSections seen rest
        else text ++ joinSections (text :: seen) rest
      else text ++ joinSections seen rest

def normalizeUnifiedPatchText (patchText : Line) : Line :=
  joinSections [] (splitSections [] (patchText.splitOn newline))

/-! ### What is asked and when it holds -/

/-- The normalised text of a diff does to every tree what the diff does, where it applies, and is
normal itself. -/
def KeepsMeaning (d : Diff) : Prop :=
  (∀ t t', applyText (textOf d) t = some t' →
      applyText (normalizeUnifiedPatchText (textOf d)) t = some t') ∧
    normalizeUnifiedPatchText (normalizeUnifiedPatchText (textOf d)) =
      normalizeUnifiedPatchText (textOf d)

def removedTexts (body : List BodyLine) : List Line :=
  (body.filter fun l => l.kind = .removed).map BodyLine.text

def addedTexts (body : List BodyLine) : List Line :=
  (body.filter fun l => l.kind = .added).map BodyLine.text

/-- The removed lines of a hunk are its added lines, the context and the markers apart. -/
def repeats (h : Hunk) : Bool := removedTexts h.body ≠ [] && removedTexts h.body = addedTexts h.body

/-- A hunk that removes the lines that it adds gives back its old lines, and a section that only
modifies its file has another one. -/
def Changing (s : Section) : Prop :=
  (∀ h ∈ s.hunks, repeats h = true → h.old = h.new) ∧
    (s.change = .modified none → ∃ h ∈ s.hunks, repeats h = false)

/-! ### Counting a hunk again -/

theorem formatRange_eq (start count : ℕ) :
    formatRange start count = rangeText start count false := by
  unfold formatRange rangeText
  by_cases h : count = 1
  · rw [if_pos h, if_pos ⟨h, rfl⟩, append_nil]
  · rw [if_neg h, if_neg fun hboth => h hboth.1]

/-- Nothing of a hunk comes next. -/
def Stops (rest : List Line) : Prop :=
  rest = [] ∨ rest = [[]] ∨ ∃ l more, rest = l :: more ∧ startsWith "@@ ".toList l = true

theorem startsWith_mark (k : Kind) (text : Line) :
    startsWith "@@ ".toList (k.mark :: text) = false ∧
      startsWith "diff --git ".toList (k.mark :: text) = false := by
  have hapart : apart "@@ ".toList [k.mark] = true ∧
      apart "diff --git ".toList [k.mark] = true := by
    cases k <;> decide
  exact ⟨startsWith_of_apart hapart.1 text, startsWith_of_apart hapart.2 text⟩

variable {rest : List Line}

theorem scan_stops {expectedOld expectedNew old new : ℕ} (h : Stops rest) :
    scan expectedOld expectedNew old new rest = ((old, new), rest) := by
  rcases h with rfl | rfl | ⟨l, more, rfl, hl⟩
  · rfl
  · have hstart : startsWith "@@ ".toList [] = false := by decide
    have hmarker : ([] : Line) ≠ marker := by decide
    rw [scan]
    simp [hmarker, startsWith]
  · rw [scan, if_pos hl]

theorem scan_marker {expectedOld expectedNew old new : ℕ} (rest : List Line) :
    scan expectedOld expectedNew old new (marker :: rest) =
      ((scan expectedOld expectedNew old new rest).1,
        marker :: (scan expectedOld expectedNew old new rest).2) := by
  have hstart : startsWith "@@ ".toList marker = false := by decide
  have hne : marker ≠ [] := by decide
  rw [scan, hstart]
  simp only [Bool.false_eq_true, hne, false_and, if_false, if_true]

theorem scan_body {expectedOld expectedNew : ℕ} (hrest : Stops rest) (body : List BodyLine) :
    ∀ old new,
      scan expectedOld expectedNew old new (bodyLines body ++ rest) =
        ((old + oldCount body, new + newCount body), bodyLines body ++ rest) := by
  induction body with
  | nil => exact fun old new => scan_stops hrest
  | cons l body ih =>
    intro old new
    have hbare : ∀ old new, scan expectedOld expectedNew old new
        ((if l.bare then [marker] else []) ++ (bodyLines body ++ rest)) =
          ((old + oldCount body, new + newCount body),
            (if l.bare then [marker] else []) ++ (bodyLines body ++ rest)) := by
      intro old new
      cases l.bare with
      | true =>
        change scan _ _ _ _ (marker :: (bodyLines body ++ rest)) = _
        rw [scan_marker, ih]
        rfl
      | false => exact ih old new
    have hlines : bodyLines (l :: body) ++ rest =
        (l.kind.mark :: l.text) ::
          ((if l.bare then [marker] else []) ++ (bodyLines body ++ rest)) := by
      unfold bodyLines BodyLine.lines
      rw [flatMap_cons, cons_append, cons_append, append_assoc]
    have hhead := (startsWith_mark l.kind l.text).1
    have hmarker := mark_ne_marker l.kind l.text
    have hmark : ∀ c : Char, startsWith [c] (l.kind.mark :: l.text) = decide (l.kind.mark = c) := by
      intro c
      simp [startsWith, isPrefixOf, Bool.beq_eq_decide_eq, eq_comm]
    rw [hlines, scan, hhead]
    simp only [Bool.false_eq_true, if_false, reduceCtorEq, false_and, hmarker, hbare, hmark]
    obtain ⟨kind, text, bare⟩ := l
    unfold oldCount newCount
    cases kind with
    | context =>
      simp [Kind.mark]
      omega
    | removed =>
      simp [Kind.mark]
      omega
    | added =>
      simp [Kind.mark]
      omega

/-! ### Both passes on a section -/

def normalHunk (h : Hunk) : Hunk := if h.heading.any isTerminator then h else h.plain

def normalSection (s : Section) : Section :=
  { s with hunks := (s.hunks.map normalHunk).filter fun h => !repeats h }

variable (h : Hunk)

theorem normalHunk_body : (normalHunk h).body = h.body := by
  unfold normalHunk
  split <;> rfl

theorem normalHunk_oldStart : (normalHunk h).oldStart = h.oldStart := by
  unfold normalHunk
  split <;> rfl

theorem repeats_normalHunk : repeats (normalHunk h) = repeats h := by
  unfold repeats
  rw [normalHunk_body]

/-- Lines that are no header of a hunk. -/
def Plain (lines : List Line) : Prop := ∀ l ∈ lines, startsWith "@@ ".toList l = false

theorem matchHeader_plain {l : Line} (h : startsWith "@@ ".toList l = false) :
    matchHeader l = none := by
  have hstrip : strip "@@ -".toList l = none := by
    unfold strip
    rw [if_neg]
    intro hlong
    have hshort : startsWith "@@ ".toList l = true := by
      unfold startsWith at hlong ⊢
      rw [ isPrefixOf_iff_prefix] at hlong ⊢
      exact List.IsPrefix.trans ( isPrefixOf_iff_prefix.mp (by decide)) hlong
    rw [h] at hshort
    exact Bool.false_ne_true hshort
  unfold matchHeader readHeader
  rw [hstrip]
  rfl

theorem plain_bodyLines (body : List BodyLine) : Plain (bodyLines body) := by
  intro l hl
  unfold bodyLines at hl
  rw [mem_flatMap] at hl
  obtain ⟨b, -, hl⟩ := hl
  unfold BodyLine.lines at hl
  rw [mem_cons] at hl
  rcases hl with rfl | hl
  · exact (startsWith_mark b.kind b.text).1
  · split at hl
    · rw [mem_singleton] at hl
      rw [hl]
      decide
    · cases hl

variable {pre : List Line}

theorem recount_plain (h : Plain pre) (rest : List Line) :
    ∀ fuel, pre.length ≤ fuel →
      recount fuel (pre ++ rest) = pre ++ recount (fuel - pre.length) rest := by
  induction pre with
  | nil => exact fun _ _ => rfl
  | cons l pre ih =>
    intro fuel hfuel
    rw [length_cons] at hfuel
    obtain ⟨fuel, rfl⟩ : ∃ n, fuel = n + 1 := ⟨fuel - 1, by omega⟩
    have hl := matchHeader_plain (h l mem_cons_self)
    have hpre := ih (fun m hm => h m (mem_cons_of_mem l hm)) fuel (by omega)
    rw [cons_append, recount, hl, length_cons, Nat.add_sub_add_right]
    rw [hpre, cons_append]

variable {tail : List Line} {hunks : List Hunk}

theorem stops_hunkLines (htail : tail = [] ∨ tail = [[]]) : Stops (hunkLines hunks ++ tail) := by
  cases hunks with
  | nil => exact htail.elim .inl fun h => .inr (.inl h)
  | cons h hunks => exact .inr (.inr ⟨h.header, _, rfl, startsWith_header h⟩)

theorem matchHeader_header :
    matchHeader h.header =
      if h.heading.any isTerminator then none
      else some ⟨h.oldStart, oldCount h.body, h.newStart, newCount h.body, h.heading⟩ := by
  unfold matchHeader
  rw [readHeader_header, Option.filter_some]
  cases h.heading.any isTerminator <;> rfl

theorem recount_hunk (hrest : Stops rest) :
    ∀ fuel, h.lines.length ≤ fuel →
      recount fuel (h.lines ++ rest) =
        (normalHunk h).lines ++ recount (fuel - h.lines.length) rest := by
  intro fuel hfuel
  unfold Hunk.lines at hfuel ⊢
  rw [length_cons] at hfuel ⊢
  obtain ⟨fuel, rfl⟩ : ∃ n, fuel = n + 1 := ⟨fuel - 1, by omega⟩
  have hbody := recount_plain (plain_bodyLines h.body) rest fuel (by omega)
  rw [cons_append, recount, matchHeader_header, Nat.add_sub_add_right]
  unfold normalHunk
  cases h.heading.any isTerminator with
  | true =>
    rw [hbody]
    rfl
  | false =>
    rw [if_neg Bool.false_ne_true]
    dsimp only
    rw [scan_body hrest, formatRange_eq, formatRange_eq, hbody, Nat.zero_add, Nat.zero_add]
    rfl

theorem recount_hunks (htail : tail = [] ∨ tail = [[]]) (hunks : List Hunk) :
    ∀ fuel, (hunkLines hunks ++ tail).length ≤ fuel →
      recount fuel (hunkLines hunks ++ tail) = hunkLines (hunks.map normalHunk) ++ tail := by
  induction hunks with
  | nil =>
    intro fuel hfuel
    have hplain : Plain tail := by
      rcases htail with rfl | rfl
      · exact fun l hl => absurd hl not_mem_nil
      · intro l hl
        rw [mem_singleton] at hl
        rw [hl]
        decide
    have hfuel' : tail.length ≤ fuel := hfuel
    have hrun := recount_plain hplain [] fuel hfuel'
    rw [append_nil] at hrun
    change recount fuel tail = tail
    rw [hrun]
    cases fuel - tail.length <;> exact append_nil tail
  | cons h hunks ih =>
    intro fuel hfuel
    have hlines : hunkLines (h :: hunks) ++ tail = h.lines ++ (hunkLines hunks ++ tail) := by
      unfold hunkLines
      rw [flatMap_cons, append_assoc]
    rw [hlines, length_append] at hfuel
    rw [hlines, recount_hunk h (stops_hunkLines htail) fuel (by omega), ih _ (by omega)]
    unfold hunkLines
    rw [map_cons, flatMap_cons, append_assoc]

theorem startsWith_kind (k : Kind) (l : BodyLine) :
    startsWith [k.mark] (l.kind.mark :: l.text) = decide (l.kind = k) := by
  cases k <;> cases l.kind <;> rfl

theorem filter_bodyLines (k : Kind) (htail : tail = [] ∨ tail = [[]]) (body : List BodyLine) :
    ((bodyLines body ++ tail).filter (startsWith [k.mark])).map (drop 1) =
      (body.filter fun l => l.kind = k).map BodyLine.text := by
  induction body with
  | nil => rcases htail with rfl | rfl <;> rfl
  | cons l body ih =>
    have hlines : bodyLines (l :: body) ++ tail =
        (l.kind.mark :: l.text) ::
          ((if l.bare then [marker] else []) ++ (bodyLines body ++ tail)) := by
      unfold bodyLines BodyLine.lines
      rw [flatMap_cons, cons_append, cons_append, append_assoc]
    have hbare : ((if l.bare then [marker] else []) ++ (bodyLines body ++ tail)).filter
        (startsWith [k.mark]) = (bodyLines body ++ tail).filter (startsWith [k.mark]) := by
      have hmarker : startsWith [k.mark] marker = false := by cases k <;> decide
      cases l.bare with
      | true =>
        change (marker :: (bodyLines body ++ tail)).filter _ = _
        rw [filter_cons_of_neg (by rw [hmarker]; exact Bool.false_ne_true)]
      | false => rfl
    rw [hlines, filter_cons, startsWith_kind, hbare, filter_cons]
    by_cases hkind : l.kind = k
    · simp only [hkind, decide_true, if_true, map_cons, ih, drop_one, tail_cons]
    · simp only [hkind, decide_false, Bool.false_eq_true, if_false, ih]

theorem isNoop_bodyLines (htail : tail = [] ∨ tail = [[]]) :
    isNoop (bodyLines h.body ++ tail) = repeats h := by
  have hremoved : ((bodyLines h.body ++ tail).filter (startsWith ['-'])).map (drop 1) =
      removedTexts h.body := filter_bodyLines .removed htail h.body
  have hadded : ((bodyLines h.body ++ tail).filter (startsWith ['+'])).map (drop 1) =
      addedTexts h.body := filter_bodyLines .added htail h.body
  unfold isNoop repeats
  simp only [hremoved, hadded]

theorem dropNoop_plain (h : Plain pre) (rest : List Line) :
    ∀ fuel, pre.length ≤ fuel →
      dropNoop fuel (pre ++ rest) = pre ++ dropNoop (fuel - pre.length) rest := by
  induction pre with
  | nil => exact fun _ _ => rfl
  | cons l pre ih =>
    intro fuel hfuel
    rw [length_cons] at hfuel
    obtain ⟨fuel, rfl⟩ : ∃ n, fuel = n + 1 := ⟨fuel - 1, by omega⟩
    have hl := h l mem_cons_self
    have hpre := ih (fun m hm => h m (mem_cons_of_mem l hm)) fuel (by omega)
    rw [cons_append, dropNoop, hl, if_neg Bool.false_ne_true, length_cons,
      Nat.add_sub_add_right, hpre, cons_append]

theorem takeWhile_body (hrest : ∀ l ∈ rest.head?, startsWith "@@ ".toList l = true)
    (htail : Plain tail) :
    ((bodyLines h.body ++ tail) ++ rest).takeWhile (fun line => !startsWith "@@ ".toList line) =
        bodyLines h.body ++ tail ∧
      ((bodyLines h.body ++ tail) ++ rest).dropWhile (fun line => !startsWith "@@ ".toList line) =
        rest := by
  have hall : ∀ l ∈ bodyLines h.body ++ tail, (!startsWith "@@ ".toList l) = true := by
    intro l hl
    rw [mem_append] at hl
    have hl' : startsWith "@@ ".toList l = false := hl.elim (plain_bodyLines h.body l) (htail l)
    rw [hl']
    rfl
  rw [takeWhile_append_of_pos hall, dropWhile_append_of_pos hall]
  cases rest with
  | nil => exact ⟨append_nil _, rfl⟩
  | cons l rest =>
    have hl := hrest l rfl
    rw [takeWhile_cons, dropWhile_cons, hl]
    exact ⟨append_nil _, rfl⟩

theorem plain_tail (htail : tail = [] ∨ tail = [[]]) : Plain tail := by
  rcases htail with rfl | rfl
  · exact fun l hl => absurd hl not_mem_nil
  · intro l hl
    rw [mem_singleton] at hl
    rw [hl]
    decide

theorem dropNoop_hunk {own : List Line} (hown : own = [] ∨ own = [[]])
    (hrest : ∀ l ∈ rest.head?, startsWith "@@ ".toList l = true) (fuel : ℕ) :
    dropNoop (fuel + 1) (h.header :: ((bodyLines h.body ++ own) ++ rest)) =
      if repeats h then dropNoop fuel rest
      else h.header :: ((bodyLines h.body ++ own) ++ dropNoop fuel rest) := by
  obtain ⟨htake, hdrop⟩ := takeWhile_body h hrest (plain_tail hown)
  rw [dropNoop, startsWith_header, if_pos rfl]
  dsimp only
  rw [htake, hdrop, isNoop_bodyLines h hown]

theorem dropNoop_nil (fuel : ℕ) : dropNoop fuel [] = [] := by cases fuel <;> rfl

/-- The hunks that repeat their removed lines go, the last one with the empty line behind it. -/
theorem dropNoop_hunks (htail : tail = [] ∨ tail = [[]]) (hunks : List Hunk) :
    ∀ fuel, (hunkLines hunks ++ tail).length ≤ fuel →
      ∃ tail', (tail' = [] ∨ tail' = [[]]) ∧ dropNoop fuel (hunkLines hunks ++ tail) =
        hunkLines (hunks.filter fun h => !repeats h) ++ tail' := by
  induction hunks with
  | nil =>
    intro fuel hfuel
    refine ⟨tail, htail, ?_⟩
    have hrun := dropNoop_plain (plain_tail htail) [] fuel hfuel
    rw [dropNoop_nil, append_nil] at hrun
    exact hrun
  | cons h hunks ih =>
    intro fuel hfuel
    have hlines : ∀ l : List Hunk,
        hunkLines (h :: l) = h.header :: (bodyLines h.body ++ hunkLines l) := by
      intro l
      unfold hunkLines Hunk.lines
      rw [flatMap_cons, cons_append]
    have hkeep : ∀ l : List Hunk, (h :: l).filter (fun h => !repeats h) =
        if repeats h then l.filter (fun h => !repeats h)
        else h :: l.filter (fun h => !repeats h) := by
      intro l
      rw [filter_cons]
      cases repeats h <;> rfl
    rw [hlines, cons_append, append_assoc] at hfuel ⊢
    rw [length_cons, length_append] at hfuel
    obtain ⟨fuel, rfl⟩ : ∃ n, fuel = n + 1 := ⟨fuel - 1, by omega⟩
    cases hunks with
    | nil =>
      have hnone : ∀ l ∈ ([] : List Line).head?, startsWith "@@ ".toList l = true := by simp
      have hrun := dropNoop_hunk h htail hnone fuel
      rw [dropNoop_nil, append_nil] at hrun
      rw [hkeep]
      change ∃ tail', _ ∧ dropNoop (fuel + 1) (h.header :: (bodyLines h.body ++ tail)) = _
      rw [hrun]
      split
      · exact ⟨[], .inl rfl, rfl⟩
      · refine ⟨tail, htail, ?_⟩
        rw [hlines, cons_append, append_assoc]
        rfl
    | cons g hunks =>
      have hhead : ∀ l ∈ (hunkLines (g :: hunks) ++ tail).head?,
          startsWith "@@ ".toList l = true := by
        intro l hl
        cases hl
        exact startsWith_header g
      have hrun := dropNoop_hunk h (.inl rfl) hhead fuel
      rw [append_nil] at hrun
      obtain ⟨tail', htail', hdrop⟩ := ih fuel (by omega)
      refine ⟨tail', htail', ?_⟩
      rw [hrun, hdrop, hkeep]
      split
      · rfl
      · rw [hlines, cons_append, append_assoc]

/-! ### The text of a section -/

theorem plain_head (s : Section) : Plain (gitLine s.source s.path :: s.extended) := by
  intro l hl
  rw [mem_cons] at hl
  rcases hl with rfl | hl
  · unfold gitLine
    exact startsWith_of_apart (by decide) _
  · obtain ⟨f, -, rfl⟩ := mem_map.mp hl
    exact startsWith_of_apart (apart_field f.1).1 f.2

theorem repair_lines (s : Section) (htail : tail = [] ∨ tail = [[]]) :
    ∃ tail', (tail' = [] ∨ tail' = [[]]) ∧
      repair (s.lines ++ tail) = (normalSection s).lines ++ tail' := by
  have hlines : ∀ hunks : List Hunk, ∀ more : List Line,
      gitLine s.source s.path :: (s.extended ++ hunkLines hunks) ++ more =
        (gitLine s.source s.path :: s.extended) ++ (hunkLines hunks ++ more) := by
    intro hunks more
    rw [cons_append, append_assoc, cons_append]
  have hcounted : recount (s.lines ++ tail).length (s.lines ++ tail) =
      (gitLine s.source s.path :: s.extended) ++ (hunkLines (s.hunks.map normalHunk) ++ tail) := by
    unfold Section.lines
    have hlength : ((gitLine s.source s.path :: s.extended) ++ (hunkLines s.hunks ++ tail)).length -
        (gitLine s.source s.path :: s.extended).length = (hunkLines s.hunks ++ tail).length := by
      rw [length_append, Nat.add_sub_cancel_left]
    rw [hlines, recount_plain (plain_head s) _ _ (by rw [length_append]; omega),
      recount_hunks htail s.hunks _ (Nat.le_of_eq hlength.symm)]
  have hlength : ((gitLine s.source s.path :: s.extended) ++
      (hunkLines (s.hunks.map normalHunk) ++ tail)).length -
      (gitLine s.source s.path :: s.extended).length =
        (hunkLines (s.hunks.map normalHunk) ++ tail).length := by
    rw [length_append, Nat.add_sub_cancel_left]
  unfold repair
  rw [hcounted]
  rw [dropNoop_plain (plain_head s) _ _ (by rw [length_append]; omega)]
  obtain ⟨tail', htail', hdrop⟩ := dropNoop_hunks htail (s.hunks.map normalHunk) _
    (Nat.le_of_eq hlength.symm)
  refine ⟨tail', htail', ?_⟩
  rw [hdrop]
  exact (hlines _ tail').symm

theorem terminated_cons (l : Line) (lines : List Line) :
    terminated (l :: lines) = l ++ newline :: terminated lines := by
  unfold terminated
  rw [flatMap_cons, append_assoc, singleton_append]

theorem terminated_append (front back : List Line) :
    terminated (front ++ back) = terminated front ++ terminated back := flatMap_append

theorem intercalate_terminated (lines : List Line) :
    [newline].intercalate (lines ++ [[]]) = terminated lines := by
  induction lines with
  | nil => rfl
  | cons l lines ih =>
    rw [terminated_cons, ← ih, cons_append,
      intercalate_cons_of_ne_nil (append_ne_nil_of_right_ne_nil _ (cons_ne_nil _ _)),
      append_assoc, singleton_append]

theorem intercalate_newline {lines : List Line} (hne : lines ≠ []) :
    [newline].intercalate lines ++ [newline] = terminated lines := by
  induction lines with
  | nil => exact absurd rfl hne
  | cons l lines ih =>
    rw [terminated_cons]
    cases lines with
    | nil =>
      rw [intercalate_singleton]
      rfl
    | cons m lines =>
      rw [← ih (cons_ne_nil m lines), intercalate_cons_cons, append_assoc,
        append_assoc, singleton_append]

theorem getLast_intercalate {lines : List Line} (hne : lines ≠ []) (hall : ∀ l ∈ lines, l ≠ []) :
    ∃ l ∈ lines, ([newline].intercalate lines).getLast? = l.getLast? := by
  induction lines with
  | nil => exact absurd rfl hne
  | cons l lines ih =>
    cases lines with
    | nil =>
      refine ⟨l, mem_cons_self, ?_⟩
      rw [intercalate_singleton]
    | cons m lines =>
      obtain ⟨k, hk, hlast⟩ := ih (cons_ne_nil m lines) fun k hk =>
        hall k (mem_cons_of_mem l hk)
      refine ⟨k, mem_cons_of_mem l hk, ?_⟩
      have hc := getLast?_eq_some_getLast (hall k (mem_cons_of_mem l hk))
      rw [intercalate_cons_cons, getLast?_append, hlast, hc]
      rfl

theorem canonical_lines {lines tail : List Line} (htail : tail = [] ∨ tail = [[]])
    (hne : lines ≠ []) (hall : ∀ l ∈ lines, OneLine l ∧ l ≠ []) :
    canonical (lines ++ tail) = terminated lines := by
  have hlast : (terminated lines).getLast? = some newline := by
    rw [← intercalate_newline hne, getLast?_append]
    rfl
  unfold canonical
  rcases htail with rfl | rfl
  · rw [append_nil]
    rw [if_neg, intercalate_newline hne]
    intro hends
    obtain ⟨l, hl, hlast⟩ := getLast_intercalate hne fun l hl => (hall l hl).2
    rw [hlast] at hends
    exact (hall l hl).1 (mem_of_getLast? hends)
  · rw [intercalate_terminated]
    rw [if_pos hlast]

/-! ### The text of a diff -/

/-- The lines of the sections, the last one with the empty line at the end of the text. -/
def parts : Diff → List (List Line)
  | [] => []
  | [s] => [s.lines ++ [[]]]
  | s :: d => s.lines :: parts d

theorem splitSections_pre (h : ∀ l ∈ pre, startsWith "diff --git ".toList l = false)
    (rest : List Line) : ∀ current,
      splitSections current (pre ++ rest) = splitSections (current ++ pre) rest := by
  induction pre with
  | nil =>
    intro current
    rw [append_nil, nil_append]
  | cons l pre ih =>
    intro current
    have hl := h l mem_cons_self
    rw [cons_append, splitSections, if_neg, ih fun m hm => h m (mem_cons_of_mem l hm),
      append_assoc, singleton_append]
    rw [hl]
    exact fun hboth => Bool.false_ne_true hboth.1

theorem startsWith_gitLine (source path : Line) :
    startsWith "diff --git ".toList (gitLine source path) = true := by
  rfl

theorem header_ne_git : startsWith "diff --git ".toList h.header = false := by
  exact startsWith_of_apart (by decide) _

theorem section_rest (s : Section) : ∀ l ∈ s.extended ++ hunkLines s.hunks,
    startsWith "diff --git ".toList l = false := by
  intro l hl
  rw [mem_append] at hl
  rcases hl with hl | hl
  · obtain ⟨f, -, rfl⟩ := mem_map.mp hl
    exact startsWith_of_apart (apart_field f.1).2 f.2
  · unfold hunkLines at hl
    rw [mem_flatMap] at hl
    obtain ⟨h, -, hl⟩ := hl
    unfold Hunk.lines bodyLines at hl
    rw [mem_cons, mem_flatMap] at hl
    rcases hl with rfl | ⟨b, -, hl⟩
    · exact header_ne_git h
    · unfold BodyLine.lines at hl
      rw [mem_cons] at hl
      rcases hl with rfl | hl
      · exact (startsWith_mark b.kind b.text).2
      · split at hl
        · rw [mem_singleton] at hl
          rw [hl]
          decide
        · cases hl

theorem splitSections_lines (s : Section) (d : Diff) :
    splitSections [gitLine s.source s.path]
      ((s.extended ++ hunkLines s.hunks) ++ (linesOf d ++ [[]])) = parts (s :: d) := by
  induction d generalizing s with
  | nil =>
    have hrest : ∀ l ∈ (s.extended ++ hunkLines s.hunks) ++ [[]],
        startsWith "diff --git ".toList l = false := by
      intro l hl
      rw [mem_append, mem_singleton] at hl
      rcases hl with hl | rfl
      · exact section_rest s l hl
      · decide
    have hrun := splitSections_pre hrest [] [gitLine s.source s.path]
    rw [append_nil] at hrun
    change splitSections _ ((s.extended ++ hunkLines s.hunks) ++ [[]]) = _
    rw [hrun]
    exact if_neg (by simp)
  | cons u d ih =>
    have hlines : linesOf (u :: d) ++ [[]] =
        gitLine u.source u.path :: ((u.extended ++ hunkLines u.hunks) ++ (linesOf d ++ [[]])) := by
      unfold linesOf Section.lines
      rw [flatMap_cons, cons_append, cons_append, append_assoc]
    rw [splitSections_pre (section_rest s) _, hlines, splitSections, ih u]
    rfl

theorem lines_nonempty (s : Section) (hs : s.Printable) : ∀ l ∈ s.lines, OneLine l ∧ l ≠ [] := by
  intro l hl
  refine ⟨hs.lines l hl, ?_⟩
  unfold Section.lines at hl
  rw [mem_cons, mem_append] at hl
  rcases hl with rfl | hl | hl
  · exact cons_ne_nil _ _
  · obtain ⟨f, -, rfl⟩ := mem_map.mp hl
    have hne : f.1.start ≠ [] := by cases f.1 <;> decide
    exact append_ne_nil_of_left_ne_nil hne f.2
  · unfold hunkLines at hl
    rw [mem_flatMap] at hl
    obtain ⟨h, -, hl⟩ := hl
    unfold Hunk.lines bodyLines at hl
    rw [mem_cons, mem_flatMap] at hl
    rcases hl with rfl | ⟨b, -, hl⟩
    · exact cons_ne_nil _ _
    · unfold BodyLine.lines at hl
      rw [mem_cons] at hl
      rcases hl with rfl | hl
      · exact cons_ne_nil _ _
      · split at hl
        · rw [mem_singleton] at hl
          rw [hl]
          decide
        · cases hl

theorem printable_normalHunk {h : Hunk} (hh : h.Printable) : (normalHunk h).Printable := by
  unfold normalHunk
  split
  · exact hh
  · exact ⟨hh.heading, hh.body⟩

variable {s : Section}

theorem printable_normal (hs : s.Printable) : (normalSection s).Printable := by
  refine ⟨hs.source, hs.path, hs.fields, hs.index, ?_⟩
  intro h hh
  obtain ⟨g, hg, rfl⟩ := mem_map.mp (mem_of_mem_filter hh)
  exact printable_normalHunk (hs.hunks g hg)

theorem canonical_repair (hs : s.Printable) (htail : tail = [] ∨ tail = [[]]) :
    canonical (repair (s.lines ++ tail)) = terminated (normalSection s).lines ∧
      startsWith "diff --git ".toList ((repair (s.lines ++ tail)).headD []) = true := by
  obtain ⟨tail', htail', hrepair⟩ := repair_lines s htail
  rw [hrepair]
  refine ⟨canonical_lines htail' (cons_ne_nil _ _) ?_, startsWith_gitLine s.source s.path⟩
  exact lines_nonempty _ (printable_normal hs)

theorem path_of_text {s u : Section} (hs : s.Printable) (hu : u.Printable)
    (h : terminated s.lines = terminated u.lines) : s.path = u.path := by
  have htext : ∀ v : Section, textOf [v] = terminated v.lines := by
    intro v
    unfold textOf linesOf
    rw [flatMap_cons, flatMap_nil, append_nil]
  have hread : ∀ v : Section, v.Printable → read (terminated v.lines) = some [v.plain] := by
    intro v hv
    rw [← htext]
    refine read_textOf fun w hw => ?_
    rw [mem_singleton.mp hw]
    exact hv
  have hboth := hread s hs
  rw [h, hread u hu, Option.some_inj, singleton_inj] at hboth
  exact (congrArg Section.path hboth).symm

theorem joinSections_cons (hs : s.Printable) (htail : tail = [] ∨ tail = [[]]) {seen : List Line}
    (rest : List (List Line)) (hseen : terminated (normalSection s).lines ∉ seen) :
    joinSections seen ((s.lines ++ tail) :: rest) =
      terminated (normalSection s).lines ++
        joinSections (terminated (normalSection s).lines :: seen) rest := by
  obtain ⟨htext, hstart⟩ := canonical_repair hs htail
  have hcontains : seen.contains (terminated (normalSection s).lines) = false := by
    rw [Bool.eq_false_iff]
    intro hmem
    exact hseen (contains_iff_mem.mp hmem)
  rw [joinSections, htext, hstart, if_pos rfl, hcontains, if_neg Bool.false_ne_true]

variable {d : Diff}

theorem joinSections_parts (hd : ∀ s ∈ d, s.Printable) (hpaths : (d.map Section.path).Nodup) :
    ∀ seen : List Line,
      (∀ s ∈ d, terminated (normalSection s).lines ∉ seen) →
        joinSections seen (parts d) = textOf (d.map normalSection) := by
  induction d with
  | nil => exact fun _ _ => rfl
  | cons s d ih =>
    intro seen hseen
    have hs := hd s mem_cons_self
    rw [map_cons, nodup_cons] at hpaths
    have htext : textOf ((s :: d).map normalSection) =
        terminated (normalSection s).lines ++ textOf (d.map normalSection) := by
      unfold textOf linesOf
      rw [map_cons, flatMap_cons, terminated_append]
    have hnext : ∀ u ∈ d, terminated (normalSection u).lines ∉
        terminated (normalSection s).lines :: seen := by
      intro u hu
      rw [mem_cons, not_or]
      refine ⟨fun hsame => hpaths.1 ?_, hseen u (mem_cons_of_mem s hu)⟩
      have hpath : (normalSection u).path = (normalSection s).path := path_of_text
        (printable_normal (hd u (mem_cons_of_mem s hu))) (printable_normal hs) hsame
      have hpath' : u.path = s.path := hpath
      exact hpath' ▸ mem_map_of_mem (f := Section.path) hu
    have hrest := ih (fun u hu => hd u (mem_cons_of_mem s hu)) hpaths.2 _ hnext
    rw [htext]
    cases d with
    | nil =>
      rw [parts, joinSections_cons hs (.inr rfl) [] (hseen s mem_cons_self)]
      rfl
    | cons u d =>
      have hrun := joinSections_cons hs (.inl rfl) (parts (u :: d)) (hseen s mem_cons_self)
      rw [append_nil] at hrun
      rw [parts, hrun, hrest]
      exact cons_ne_nil u d

theorem normalize_textOf (hne : d ≠ []) (hd : ∀ s ∈ d, s.Printable)
    (hpaths : (d.map Section.path).Nodup) :
    normalizeUnifiedPatchText (textOf d) = textOf (d.map normalSection) := by
  unfold normalizeUnifiedPatchText textOf
  rw [splitOn_terminated (oneLine_linesOf hd)]
  cases d with
  | nil => exact absurd rfl hne
  | cons s d =>
    have hlines : linesOf (s :: d) ++ [[]] =
        gitLine s.source s.path :: ((s.extended ++ hunkLines s.hunks) ++ (linesOf d ++ [[]])) := by
      unfold linesOf Section.lines
      rw [flatMap_cons, cons_append, cons_append, append_assoc]
    have hsplit : splitSections [] (linesOf (s :: d) ++ [[]]) = parts (s :: d) := by
      rw [hlines, splitSections, if_neg fun hboth => hboth.2 rfl]
      exact splitSections_lines s d
    rw [hsplit]
    exact joinSections_parts hd hpaths [] fun _ _ => not_mem_nil

/-! ### What the dropped hunks do -/

/-- A section without the hunks that repeat their removed lines. -/
def dropped (s : Section) : Section := { s with hunks := s.hunks.filter fun h => !repeats h }

theorem normalSection_eq (s : Section) :
    normalSection s = { dropped s with hunks := (dropped s).hunks.map normalHunk } := by
  have hkeep : ((fun h => !repeats h) ∘ normalHunk) = fun h => !repeats h := by
    funext h
    exact congrArg (! ·) (repeats_normalHunk h)
  unfold normalSection dropped
  rw [filter_map, hkeep]

theorem length_sides (body : List BodyLine) :
    (oldSide body).length + (addedTexts body).length =
      (newSide body).length + (removedTexts body).length := by
  unfold oldSide newSide addedTexts removedTexts
  simp only [length_map, ne_eq, decide_not]
  induction body with
  | nil => rfl
  | cons l body ih =>
    obtain ⟨kind, text, bare⟩ := l
    cases kind with
    | context =>
      simp
      omega
    | removed =>
      simp
      omega
    | added =>
      simp
      omega

theorem length_of_repeats {h : Hunk} (hrepeats : repeats h = true) :
    h.new.length = h.old.length := by
  have hsides := length_sides h.body
  unfold repeats at hrepeats
  rw [Bool.and_eq_true, decide_eq_true_eq, decide_eq_true_eq] at hrepeats
  rw [hrepeats.2] at hsides
  unfold Hunk.new Hunk.old
  omega

/-- Without the hunks that repeat their removed lines the others still fit, and the outcome is the
same just if those give back their old lines. -/
theorem applyHunks_dropped {file out : List FileLine} (h : applyHunks file hunks = some out) :
    ∃ out', applyHunks file (hunks.filter fun h => !repeats h) = some out' ∧
      (out = out' ↔ ∀ h ∈ hunks, repeats h = true → h.old = h.new) := by
  have hlength : ∀ h ∈ hunks, h.new.length =
      (if (!repeats h) = true then h.new else h.old).length := by
    intro h _
    cases hrepeats : repeats h with
    | true => exact length_of_repeats hrepeats
    | false => rfl
  obtain ⟨out', hout', hsame⟩ := replaceHunks_side
    (fun h => if (!repeats h) = true then h.new else h.old) hlength h
  refine ⟨out', replaceHunks_filter (fun h => !repeats h) hout', hsame.trans ?_⟩
  refine forall_congr' fun h => forall_congr' fun _ => ?_
  cases repeats h with
  | true => exact ⟨fun heq _ => heq.symm, fun heq => (heq rfl).symm⟩
  | false => exact ⟨fun _ hfalse => absurd hfalse Bool.false_ne_true, fun _ => rfl⟩

theorem dropped_eq_nil (h : (dropped s).hunks = []) : ∀ h ∈ s.hunks, repeats h = true := by
  intro g hg
  have hnone := filter_eq_nil_iff.mp h g hg
  simpa using hnone

theorem edit_dropped (hs : ∀ h ∈ s.hunks, repeats h = true → h.old = h.new)
    {modes : Option (Line × Line)} {e e' : Entry} (h : s.edit modes e = some e') :
    (dropped s).edit modes e = some e' := by
  obtain ⟨out, hout, hrest⟩ := Option.bind_eq_some_iff.mp h
  obtain ⟨out', hout', hsame⟩ := applyHunks_dropped hout
  rw [← hsame.mpr hs] at hout'
  exact Option.bind_eq_some_iff.mpr ⟨out, hout', hrest⟩

/-- A section that is changing does without the dropped hunks what it does with them. -/
theorem effect_dropped (hs : Changing s) {source target : Option Entry}
    {after : Option Entry × Option Entry} (h : s.effect source target = some after) :
    (dropped s).effect source target = some after := by
  have hchange : (dropped s).change = s.change := rfl
  have hmap : ∀ {modes : Option (Line × Line)} {e : Entry} {a : Option Entry},
      (s.edit modes e).map (fun e' => (a, some e')) = some after →
        ((dropped s).edit modes e).map (fun e' => (a, some e')) = some after := by
    intro modes e a hedit
    obtain ⟨e', he', hafter⟩ := Option.map_eq_some_iff.mp hedit
    rw [edit_dropped hs.1 he', Option.map_some, hafter]
  unfold Section.effect at h ⊢
  rw [hchange]
  split at h
  · rename_i modes e hc
    split at h
    · cases h
    · rw [if_neg]
      · exact hmap h
      · rintro ⟨hnil, rfl⟩
        obtain ⟨g, hg, hfalse⟩ := hs.2 hc
        rw [dropped_eq_nil hnil g hg] at hfalse
        exact Bool.noConfusion hfalse
  · exact hmap h
  · rename_i e _
    split at h
    · rename_i hout
      obtain ⟨out', hout', hsame⟩ := applyHunks_dropped hout
      rw [← hsame.mpr hs.1] at hout'
      have hdropped : applyHunks e.file.lines (dropped s).hunks = some [] := hout'
      rw [if_pos hdropped]
      exact h
    · cases h
  · exact hmap h
  · exact hmap h
  · cases h

theorem not_repeats_of_kind {h : Hunk} {k : Kind} (hk : k = .added ∨ k = .removed)
    (hall : ∀ l ∈ h.body, l.kind = k) : repeats h = false := by
  have hnone : ∀ j : Kind, j ≠ k → (h.body.filter fun l => l.kind = j) = [] := by
    intro j hj
    rw [filter_eq_nil_iff]
    intro l hl
    rw [hall l hl, decide_eq_true_eq]
    exact fun heq => hj heq.symm
  unfold repeats removedTexts addedTexts
  rcases hk with rfl | rfl
  · rw [hnone .removed (by decide)]
    rfl
  · rw [hnone .added (by decide)]
    simp

/-- Where both edits of a file come to the same, the dropped hunks give back their old lines. -/
theorem same_of_edit {modes : Option (Line × Line)} {e e' : Entry} (h : s.edit modes e = some e')
    (hdropped : (dropped s).edit modes e = some e') :
    ∀ h ∈ s.hunks, repeats h = true → h.old = h.new := by
  obtain ⟨out, hout, hrest⟩ := Option.bind_eq_some_iff.mp h
  obtain ⟨file, hfile, hentry⟩ := Option.bind_eq_some_iff.mp hrest
  obtain ⟨out', hout', hrest'⟩ := Option.bind_eq_some_iff.mp hdropped
  obtain ⟨file', hfile', hentry'⟩ := Option.bind_eq_some_iff.mp hrest'
  obtain ⟨out₁, hout₁, hsame⟩ := applyHunks_dropped hout
  have hout₁' : out' = out₁ := Option.some.inj (hout'.symm.trans hout₁)
  have hfiles : file = file' := by
    have hentries := hentry.trans hentry'.symm
    simp only [pure, Option.some_inj, Entry.mk.injEq, true_and] at hentries
    exact hentries
  have houts : out = out' := by rw [← File.lines_of hfile, ← File.lines_of hfile', hfiles]
  exact hsame.mp (houts.trans hout₁')

theorem changing_of_effect (hs : s.WellFormed) {source target : Option Entry}
    {after : Option Entry × Option Entry} (h : s.effect source target = some after)
    {a : Option Entry} (hdropped : (dropped s).effect source target = some (a, after.2)) :
    Changing s := by
  have hfits := hs.change_fits
  have hchange : (dropped s).change = s.change := rfl
  have hother : ∀ k : Kind, k = .added ∨ k = .removed →
      (∀ h ∈ s.hunks, ∀ l ∈ h.body, l.kind = k) → s.change ≠ .modified none → Changing s := by
    intro k hk hall hne
    refine ⟨fun h hh hrepeats => ?_, fun heq => absurd heq hne⟩
    rw [not_repeats_of_kind hk (hall h hh)] at hrepeats
    exact Bool.noConfusion hrepeats
  have hedits : ∀ {modes : Option (Line × Line)} {e : Entry} {b : Option Entry},
      (s.edit modes e).map (fun e' => (b, some e')) = some after →
        ((dropped s).edit modes e).map (fun e' => (b, some e')) = some (a, after.2) →
          ∀ h ∈ s.hunks, repeats h = true → h.old = h.new := by
    intro modes e b hedit hedit'
    obtain ⟨e₁, he₁, rfl⟩ := Option.map_eq_some_iff.mp hedit
    obtain ⟨e₂, he₂, hsame⟩ := Option.map_eq_some_iff.mp hedit'
    have hentries : e₂ = e₁ := Option.some.inj (Prod.mk.inj hsame).2
    rw [hentries] at he₂
    exact same_of_edit he₁ he₂
  unfold Section.effect at h hdropped
  rw [hchange] at hdropped
  split at h
  · rename_i modes source e hc
    rw [hc] at hdropped
    dsimp only at hdropped
    split at h
    · cases h
    · split at hdropped
      · cases hdropped
      · rename_i hkept
        refine ⟨hedits h hdropped, fun hnone => ?_⟩
        by_contra hex
        have hall : ∀ g ∈ s.hunks, repeats g = true := by
          intro g hg
          cases hrepeats : repeats g with
          | true => rfl
          | false => exact absurd ⟨g, hg, hrepeats⟩ hex
        refine hkept ⟨?_, ?_⟩
        · refine filter_eq_nil_iff.mpr fun g hg => ?_
          rw [hall g hg]
          exact Bool.false_ne_true
        · rw [hc] at hnone
          exact Change.modified.inj hnone
  · rename_i mode source hc
    rw [hc] at hfits
    exact hother .added (.inl rfl) (fun h hh => (hfits.2 h hh).2) (by rw [hc]; simp)
  · rename_i mode source e hc
    rw [hc] at hfits
    exact hother .removed (.inr rfl) (fun h hh => (hfits.2 h hh).2) (by rw [hc]; simp)
  · rename_i modes similarity path e hc
    rw [hc] at hdropped
    exact ⟨hedits h hdropped, fun hnone => by rw [hc] at hnone; cases hnone⟩
  · rename_i modes similarity path e hc
    rw [hc] at hdropped
    exact ⟨hedits h hdropped, fun hnone => by rw [hc] at hnone; cases hnone⟩
  · cases h

/-! ### Runs over the whole diff -/

theorem printable_of (hd : WellFormed d) : ∀ s ∈ d, s.Printable :=
  fun s hs => (hd.sections s hs).toPrintable

theorem paths_normal (d : Diff) : (d.map normalSection).map Section.path = d.map Section.path := by
  rw [map_map]
  rfl

theorem touches_dropped (d : Diff) :
    (d.map dropped).flatMap Section.touches = d.flatMap Section.touches := by
  rw [flatMap_map]
  rfl

theorem applyText_normalize (hd : WellFormed d) (t : Tree) :
    applyText (normalizeUnifiedPatchText (textOf d)) t = applyDiff (d.map dropped) t := by
  have hprintable : ∀ s ∈ d.map normalSection, s.Printable := by
    intro s hs
    obtain ⟨u, hu, rfl⟩ := mem_map.mp hs
    exact printable_normal (printable_of hd u hu)
  rw [normalize_textOf hd.nonempty (printable_of hd) (paths_nodup hd.touches),
    applyText_textOf hprintable]
  have hmap : d.map normalSection =
      (d.map dropped).map fun s => { s with hunks := s.hunks.map normalHunk } := by
    rw [map_map]
    exact map_congr_left fun s _ => normalSection_eq s
  rw [hmap]
  exact applyDiff_map (fun s => { s with hunks := s.hunks.map normalHunk }) (fun _ => ⟨rfl, rfl⟩)
    (fun s => effect_map normalHunk normalHunk_body normalHunk_oldStart s) _ t

theorem normalHunk_idem : normalHunk (normalHunk h) = normalHunk h := by
  by_cases hany : h.heading.any isTerminator = true
  · have hsame : normalHunk h = h := if_pos hany
    rw [hsame, hsame]
  · have hplain : normalHunk h = h.plain := if_neg hany
    have hagain : normalHunk h.plain = h.plain.plain := if_neg hany
    rw [hplain, hagain]
    rfl

theorem normalSection_idem (s : Section) : normalSection (normalSection s) = normalSection s := by
  have hkept : ∀ h ∈ s.hunks.map normalHunk, normalHunk h = h := by
    intro h hh
    obtain ⟨g, -, rfl⟩ := mem_map.mp hh
    exact normalHunk_idem g
  have hmap : (normalSection s).hunks.map normalHunk = (normalSection s).hunks := by
    have hid : ∀ h ∈ (normalSection s).hunks, normalHunk h = id h :=
      fun h hh => hkept h (mem_of_mem_filter hh)
    rw [map_congr_left hid, map_id]
  have hagain : (normalSection (normalSection s)).hunks = (normalSection s).hunks := by
    change ((normalSection s).hunks.map normalHunk).filter _ = _
    rw [hmap]
    change (filter _ (filter _ _)) = filter _ _
    rw [filter_filter]
    simp only [Bool.and_self]
  have heq : normalSection (normalSection s) =
      { normalSection s with hunks := (normalSection (normalSection s)).hunks } := rfl
  rw [heq, hagain]

theorem normalize_idem (hd : WellFormed d) :
    normalizeUnifiedPatchText (normalizeUnifiedPatchText (textOf d)) =
      normalizeUnifiedPatchText (textOf d) := by
  have hprintable : ∀ s ∈ d.map normalSection, s.Printable := by
    intro s hs
    obtain ⟨u, hu, rfl⟩ := mem_map.mp hs
    exact printable_normal (printable_of hd u hu)
  have hne : d.map normalSection ≠ [] := by
    intro hnil
    exact hd.nonempty (map_eq_nil_iff.mp hnil)
  have hpaths : ((d.map normalSection).map Section.path).Nodup := by
    rw [paths_normal]
    exact paths_nodup hd.touches
  rw [normalize_textOf hd.nonempty (printable_of hd) (paths_nodup hd.touches),
    normalize_textOf hne hprintable hpaths, map_map]
  congr 1
  exact map_congr_left fun s _ => normalSection_idem s

/-- Normalising the text of a well-formed diff keeps its meaning just if every hunk whose removed
lines are its added lines gives back the old lines, and no section that only modifies its file
consists of such hunks. -/
theorem keepsMeaning_iff {d : Diff} (hd : WellFormed d) : KeepsMeaning d ↔ ∀ s ∈ d, Changing s := by
  have htouches : ((d.map dropped).flatMap Section.touches).Nodup := by
    rw [touches_dropped]
    exact hd.touches
  constructor
  · intro hkeeps s hs
    obtain ⟨t', ht'⟩ := hd.applies
    have hnormal := hkeeps.1 (treeBefore d) t' (by
      rw [applyText_textOf (printable_of hd)]
      exact ht')
    rw [applyText_normalize hd, applyDiff_eq_some_iff htouches] at hnormal
    obtain ⟨a, hold, -⟩ := ((applyDiff_eq_some_iff hd.touches).mp ht').1 s hs
    obtain ⟨b, hnew, -⟩ := hnormal.1 (dropped s) (mem_map_of_mem hs)
    exact changing_of_effect (hd.sections s hs) hold hnew
  · intro hchanging
    refine ⟨fun t t' ht => ?_, normalize_idem hd⟩
    rw [applyText_textOf (printable_of hd), applyDiff_eq_some_iff hd.touches] at ht
    rw [applyText_normalize hd, applyDiff_eq_some_iff htouches, touches_dropped]
    refine ⟨fun u hu => ?_, ht.2⟩
    obtain ⟨s, hs, rfl⟩ := mem_map.mp hu
    obtain ⟨a, heffect, hsource⟩ := ht.1 s hs
    exact ⟨a, effect_dropped (hchanging s hs) heffect, hsource⟩

def valueSection (hunks : List Hunk) : Section where
  path := "src/value.txt".toList
  change := .modified none
  hunks := hunks

theorem wellFormed_value (hne : hunks ≠ [])
    (hprintable : ∀ h ∈ hunks, OneLine h.heading ∧ ∀ l ∈ h.body, OneLine l.text)
    (hbodies : ∀ h ∈ hunks, h.body ≠ []) (hstarts : ∀ h ∈ hunks, h.oldStart ≠ 0 ∧ h.newStart ≠ 0)
    (hordered : Ordered 0 hunks) (haligned : Aligned 0 0 hunks)
    (hwhole : ∀ h ∈ hunks.dropLast, ∀ l ∈ h.body, l.bare = false)
    (hlast : ∀ h ∈ hunks.getLast?, Proper h.old ∧ Proper h.new) :
    WellFormed [valueSection hunks] where
  nonempty := cons_ne_nil _ _
  touches := nodup_singleton _
  sections := by
    intro s hs
    rw [mem_singleton] at hs
    subst hs
    exact {
      source := by
        change OneLine "src/value.txt".toList
        decide
      path := by
        change OneLine "src/value.txt".toList
        decide
      fields := fun _ hf => nomatch hf
      index := fun _ hi => nomatch hi
      hunks := fun h hh => ⟨(hprintable h hh).1, (hprintable h hh).2⟩
      named := ⟨fun _ => hne, fun _ => rfl⟩
      bodies := hbodies
      starts := fun h hh => ⟨fun _ => (hstarts h hh).1, fun _ => (hstarts h hh).2⟩
      ordered := hordered
      aligned := haligned
      whole := hwhole
      last := hlast
      change_fits := .inl hne
    }

/-- The first line becomes another one. -/
def edited : Hunk where
  oldStart := 1
  newStart := 1
  body := [⟨.removed, "one".toList, false⟩, ⟨.added, "two".toList, false⟩]

/-- The fifth line moves past the sixth. -/
def moved : Hunk where
  oldStart := 5
  newStart := 5
  body := [⟨.removed, "five".toList, false⟩, ⟨.context, "six".toList, false⟩,
    ⟨.added, "five".toList, false⟩]

/-- The fifth and last line gets a newline. -/
def ended : Hunk where
  oldStart := 5
  newStart := 5
  body := [⟨.removed, "five".toList, true⟩, ⟨.added, "five".toList, false⟩]

/-- The fifth line is replaced by itself. -/
def repeated : Hunk where
  oldStart := 5
  newStart := 5
  body := [⟨.removed, "five".toList, false⟩, ⟨.added, "five".toList, false⟩]

theorem keepsMeaning_edited : KeepsMeaning [valueSection [edited, repeated]] := by
  have hd : WellFormed [valueSection [edited, repeated]] :=
    wellFormed_value (by decide) (by decide) (by decide) (by decide)
      ⟨by decide, by decide, trivial⟩ ⟨by decide, by decide, trivial⟩ (by decide) (by decide)
  refine (keepsMeaning_iff hd).mpr fun s hs => ?_
  rw [mem_singleton] at hs
  subst hs
  exact ⟨by decide, fun _ => ⟨edited, mem_cons_self, by decide⟩⟩

/-- A line that moves past its context stays where it is, and a newline at the end of a file is not
added: the text that is left of both diffs leaves another file behind. -/
theorem meaning_lost :
    (WellFormed [valueSection [edited, moved]] ∧
        ¬ KeepsMeaning [valueSection [edited, moved]]) ∧
      WellFormed [valueSection [edited, ended]] ∧
        ¬ KeepsMeaning [valueSection [edited, ended]] := by
  have hlost : ∀ d : Diff, (applyText (textOf d) (treeBefore d)).isSome = true →
      (applyText (normalizeUnifiedPatchText (textOf d)) (treeBefore d)).map
          (fun t => t "src/value.txt".toList) ≠
        (applyText (textOf d) (treeBefore d)).map (fun t => t "src/value.txt".toList) →
      ¬ KeepsMeaning d := by
    intro d hsome hother hkeeps
    obtain ⟨t', ht'⟩ := Option.isSome_iff_exists.mp hsome
    rw [hkeeps.1 _ t' ht', ht'] at hother
    exact hother rfl
  refine ⟨⟨?_, hlost _ (by decide) (by decide)⟩, ?_, hlost _ (by decide) (by decide)⟩
  · exact wellFormed_value (by decide) (by decide) (by decide) (by decide)
      ⟨by decide, by decide, trivial⟩ ⟨by decide, by decide, trivial⟩ (by decide) (by decide)
  · exact wellFormed_value (by decide) (by decide) (by decide) (by decide)
      ⟨by decide, by decide, trivial⟩ ⟨by decide, by decide, trivial⟩ (by decide) (by decide)

end Ds4Studio.Evolution.PatchNormal
