import Ds4Studio.Lib.CodeUnits

/-!
The splitting of a markdown text into chunks of a target length: by headings first, then
packed together or, where a section is too long, cut at blank lines and last by length.
-/

namespace Ds4Studio.Web.Chunking

open List Utf16

/-- `APPROX_CHARS_PER_TOKEN` -/
def approxCharsPerToken : ℕ := 4

/-- `Math.ceil(text.length / APPROX_CHARS_PER_TOKEN)` -/
def approxTokenCount (text : Utf16) : ℕ := (text.length + 3) / approxCharsPerToken

structure Segment where
  title : Utf16
  body : Utf16

structure Chunk where
  index : ℕ
  title : Utf16
  body : Utf16
  approxTokens : ℕ

/-! ### Headings -/

/-- The line terminators, which a dot does not match. -/
def isTerminator (u : UInt16) : Bool := u ∈ [0x0a, 0x0d, 0x2028, 0x2029]

/-- `text.split(/\r?\n/)` -/
def splitLines : Utf16 → List Utf16
  | [] => [[]]
  | u :: rest =>
      if u = 0x0a then [] :: splitLines rest
      else if u = 0x0d ∧ rest.head? = some 0x0a then splitLines rest
      else (splitLines rest).modifyHead (u :: ·)

/-- `\s*#*\s*$` -/
def isClosing (text : Utf16) : Bool := ((text.dropWhile isSpace).dropWhile (· = 0x23)).all isSpace

/-- `(.+?)\s*#*\s*$` -/
def lazyTitle : Utf16 → Option Utf16
  | [] => none
  | u :: rest =>
      if isTerminator u then none
      else if isClosing rest then some [u]
      else (lazyTitle rest).map (u :: ·)

/-- `\s+(.+?)\s*#*\s*$`: as much white space as leaves a title. -/
def spacedTitle (text : Utf16) : Option Utf16 :=
  (range (text.takeWhile isSpace).length).reverse.findSome? fun n =>
    lazyTitle (text.drop (n + 1))

/-- The second group of `/^(#{1,6})\s+(.+?)\s*#*\s*$/`. -/
def headingTitle (line : Utf16) : Option Utf16 :=
  let hashes := (line.takeWhile (· = 0x23)).length
  if 1 ≤ hashes ∧ hashes ≤ 6 then spacedTitle (line.drop hashes) else none

def join (separator : Utf16) (parts : List Utf16) : Utf16 := separator.intercalate parts

def pushSegment (segments : List Segment) (body title : Utf16) : List Segment :=
  let trimmed := trim body
  if trimmed = [] then segments else segments ++ [⟨title, trimmed⟩]

/-- The loop of `splitByHeadings`: the segments, `currentTitle` and `buffer`. -/
def headingStep (s : List Segment × Utf16 × List Utf16) (line : Utf16) :
    List Segment × Utf16 × List Utf16 :=
  match headingTitle line with
  | some title => (pushSegment s.1 (join [0x0a] s.2.2) s.2.1, title, [])
  | none => (s.1, s.2.1, s.2.2 ++ [line])

def splitByHeadings (text : Utf16) : List Segment :=
  let (segments, currentTitle, buffer) := (splitLines text).foldl headingStep ([], [], [])
  pushSegment segments (join [0x0a] buffer) currentTitle

/-! ### Paragraphs -/

/-- What is left after `\s*\n`, which takes the last line break of the white space. -/
def afterBlank : Utf16 → Option Utf16
  | [] => none
  | u :: rest =>
      if isSpace u then
        match afterBlank rest with
        | some after => some after
        | none => if u = 0x0a then some rest else none
      else none

theorem length_afterBlank {text after : Utf16} (h : afterBlank text = some after) :
    after.length < text.length := by
  fun_induction afterBlank text with
  | case1 => cases h
  | case2 u rest _ more hmore ih =>
    cases h
    exact Nat.lt_succ_of_lt (ih hmore)
  | case3 rest _ _ _ =>
    cases h
    exact Nat.lt_succ_self _
  | case4 => cases h
  | case5 => cases h

/-- `body.split(/\n\s*\n/)` -/
def splitBlank (text : Utf16) : List Utf16 :=
  match text with
  | [] => [[]]
  | u :: rest =>
      if u = 0x0a then
        match _h : afterBlank rest with
        | some after => [] :: splitBlank after
        | none => (splitBlank rest).modifyHead (u :: ·)
      else (splitBlank rest).modifyHead (u :: ·)
termination_by text.length
decreasing_by
  · exact Nat.lt_succ_of_lt (length_afterBlank _h)
  · exact Nat.lt_succ_self _
  · exact Nat.lt_succ_self _

def splitByBlankLines (body : Utf16) : List Utf16 :=
  ((splitBlank body).map trim).filter fun p => p ≠ []

def hardSplit (text : Utf16) (maxChars : ℕ) : List Utf16 :=
  if _h : text = [] ∨ maxChars = 0 then []
  else text.take maxChars :: hardSplit (text.drop maxChars) maxChars
termination_by text.length
decreasing_by
  obtain ⟨htext, hmax⟩ := not_or.mp _h
  have hpos := length_pos_of_ne_nil htext
  rw [length_drop]
  omega

/-! ### Packing -/

/-- `Math.floor` -/
def floor : Num → Num
  | .fin q => .fin q.floor
  | x => x

def targetChars (d : Doubles) (targetTokens : Num) : Num :=
  (Num.nat 2000).max (floor (d.mul targetTokens (.nat approxCharsPerToken)))

/-- A length that is above the target. -/
def above (target : Num) (n : ℕ) : Bool := target.lt (.nat n)

/-- A number of characters as the loop over a text counts it. -/
def count : Num → ℕ
  | .fin q => q.floor.toNat
  | _ => 0

/-- The heading as the chunks write it. -/
def heading (title : Utf16) : Utf16 := ascii "## " ++ title

def segText (seg : Segment) : Utf16 :=
  if seg.title = [] then seg.body else heading seg.title ++ ascii "\n\n" ++ seg.body

/-- `chunks.push` of a body with its number. -/
def push (chunks : List Chunk) (title body counted : Utf16) : List Chunk :=
  chunks ++ [⟨chunks.length, title, body, approxTokenCount counted⟩]

/-- `chunks.push` of a trimmed text, if there is one. -/
def pushTrimmed (chunks : List Chunk) (title text : Utf16) : List Chunk :=
  if trim text = [] then chunks else push chunks title (trim text) text

def glue (text more : Utf16) : Utf16 := (if text = [] then [] else text ++ ascii "\n\n") ++ more

structure Packing where
  chunks : List Chunk
  currentTitle : Utf16
  currentBody : Utf16

def flush (s : Packing) : Packing :=
  { s with chunks := pushTrimmed s.chunks s.currentTitle s.currentBody, currentBody := [] }

def pushSlices (title : Utf16) (chunks : List Chunk) (slices : List Utf16) : List Chunk :=
  slices.foldl (fun chunks slice => push chunks title slice slice) chunks

/-- The loop over the paragraphs of a section that is too long: the chunks and `para`. -/
def paragraphStep (target : Num) (title : Utf16) (s : List Chunk × Utf16) (p : Utf16) :
    List Chunk × Utf16 :=
  if above target (s.2.length + p.length + 2) then
    let chunks := pushTrimmed s.1 title s.2
    if above target p.length then (pushSlices title chunks (hardSplit p (count target)), [])
    else (chunks, p)
  else (s.1, glue s.2 p)

def packParagraphs (target : Num) (seg : Segment) (chunks : List Chunk) : List Chunk :=
  let (chunks, para) := (splitByBlankLines seg.body).foldl (paragraphStep target seg.title)
    (chunks, if seg.title = [] then [] else heading seg.title)
  pushTrimmed chunks seg.title para

def orTitle (title other : Utf16) : Utf16 := if title = [] then other else title

def packStep (target : Num) (s : Packing) (seg : Segment) : Packing :=
  let text := segText seg
  if (Num.nat text.length).le target then
    if above target (s.currentBody.length + text.length + 2) then
      let s := flush s
      { s with currentTitle := orTitle seg.title s.currentTitle, currentBody := text }
    else
      { s with
        currentTitle := orTitle s.currentTitle seg.title
        currentBody := glue s.currentBody text }
  else ⟨packParagraphs target seg (flush s).chunks, [], []⟩

def splitMarkdownChunks (d : Doubles) (text : Utf16) (targetTokens : Num) : List Chunk :=
  if trim text = [] then []
  else
    let target := targetChars d targetTokens
    (flush ((splitByHeadings text).foldl (packStep target) ⟨[], [], []⟩)).chunks

/-! ### What a text holds apart from white space -/

def solid (text : Utf16) : Utf16 := text.filter fun u => !isSpace u

theorem solid_append (a b : Utf16) : solid (a ++ b) = solid a ++ solid b := filter_append ..

variable {text : Utf16}

theorem solid_eq_nil_iff : solid text = [] ↔ ∀ u ∈ text, isSpace u = true := by
  simp [solid, filter_eq_nil_iff]

theorem trim_eq_nil_iff_solid : trim text = [] ↔ solid text = [] :=
  trim_eq_nil_iff.trans solid_eq_nil_iff.symm

theorem solid_dropWhile (text : Utf16) : solid (text.dropWhile isSpace) = solid text := by
  induction text with
  | nil => rfl
  | cons u text ih =>
    rw [dropWhile_cons]
    split_ifs with hu
    · rw [ih, solid, solid, filter_cons_of_neg (by simp [hu])]
    · rfl

theorem solid_reverse (text : Utf16) : solid text.reverse = (solid text).reverse :=
  filter_reverse ..

theorem solid_trim (text : Utf16) : solid (trim text) = solid text := by
  rw [trim, solid_reverse, solid_dropWhile, solid_reverse, reverse_reverse, solid_dropWhile]

theorem length_trim_le (text : Utf16) : (trim text).length ≤ text.length := by
  rw [trim, length_reverse]
  have hback := (dropWhile_sublist (l := (text.dropWhile isSpace).reverse) isSpace).length_le
  rw [length_reverse] at hback
  exact hback.trans (dropWhile_sublist isSpace).length_le

theorem solid_modifyHead (u : UInt16) (parts : List Utf16) (h : parts ≠ []) :
    (parts.modifyHead (u :: ·)).flatMap solid = solid [u] ++ parts.flatMap solid := by
  cases parts with
  | nil => exact absurd rfl h
  | cons part parts =>
    rw [modifyHead_cons, flatMap_cons, flatMap_cons, ← append_assoc, ← solid_append]
    rfl

theorem solid_cons (u : UInt16) (text : Utf16) : solid (u :: text) = solid [u] ++ solid text :=
  solid_append [u] text

theorem splitLines_ne_nil (text : Utf16) : splitLines text ≠ [] := by
  induction text with
  | nil => exact cons_ne_nil _ _
  | cons u rest ih =>
    rw [splitLines]
    split_ifs
    · exact cons_ne_nil _ _
    · exact ih
    · cases hrest : splitLines rest with
      | nil => exact absurd hrest ih
      | cons line lines => exact cons_ne_nil _ _

theorem solid_splitLines (text : Utf16) : (splitLines text).flatMap solid = solid text := by
  induction text with
  | nil => rfl
  | cons u rest ih =>
    rw [splitLines, solid_cons]
    split_ifs with hbreak hreturn
    · rw [hbreak, flatMap_cons, ih]
      rfl
    · rw [hreturn.1, ih]
      rfl
    · rw [solid_modifyHead u _ (splitLines_ne_nil rest), ih]

theorem solid_join (separator : Utf16) (parts : List Utf16) (h : solid separator = []) :
    solid (join separator parts) = parts.flatMap solid := by
  induction parts with
  | nil => rfl
  | cons part parts ih =>
    cases parts with
    | nil => simp [join, intercalate]
    | cons next parts =>
      have hjoin : join separator (part :: next :: parts) =
          part ++ separator ++ join separator (next :: parts) := by
        simp [join, intercalate]
      rw [hjoin, solid_append, solid_append, h, append_nil, ih]
      rfl

theorem solid_afterBlank {text after : Utf16} (h : afterBlank text = some after) :
    solid text = solid after := by
  fun_induction afterBlank text with
  | case1 => cases h
  | case2 u rest hspace more hmore ih =>
    cases h
    rw [solid_cons, ih hmore, solid, filter_cons_of_neg (by simp [hspace])]
    rfl
  | case3 rest hspace _ _ =>
    cases h
    rfl
  | case4 => cases h
  | case5 => cases h

theorem splitBlank_ne_nil (text : Utf16) : splitBlank text ≠ [] := by
  fun_induction splitBlank text with
  | case1 => exact cons_ne_nil _ _
  | case2 => exact cons_ne_nil _ _
  | case3 rest hnone ih | case4 u rest hu ih =>
    cases hrest : splitBlank rest with
    | nil => exact absurd hrest ih
    | cons part parts => exact cons_ne_nil _ _

theorem solid_splitBlank (text : Utf16) : (splitBlank text).flatMap solid = solid text := by
  fun_induction splitBlank text with
  | case1 => rfl
  | case2 rest after hafter ih =>
    rw [flatMap_cons, ih, solid_cons, solid_afterBlank hafter]
    rfl
  | case3 rest hnone ih | case4 u rest hu ih =>
    rw [solid_modifyHead _ _ (splitBlank_ne_nil rest), ih, ← solid_cons]

theorem solid_splitByBlankLines (body : Utf16) :
    (splitByBlankLines body).flatMap solid = solid body := by
  rw [← solid_splitBlank, splitByBlankLines]
  induction splitBlank body with
  | nil => rfl
  | cons part parts ih =>
    rw [map_cons, filter_cons, flatMap_cons]
    split_ifs with hpart
    · rw [flatMap_cons, solid_trim, ih]
    · have hnil : trim part = [] := by simpa using hpart
      rw [trim_eq_nil_iff_solid.mp hnil, nil_append, ih]

theorem flatten_hardSplit {maxChars : ℕ} (h : maxChars ≠ 0) (text : Utf16) :
    (hardSplit text maxChars).flatten = text := by
  fun_induction hardSplit text maxChars with
  | case1 text hend => exact (hend.resolve_right h).symm
  | case2 text hend ih => rw [flatten_cons, ih, take_append_drop]

theorem length_hardSplit (maxChars : ℕ) (text : Utf16) :
    ∀ slice ∈ hardSplit text maxChars, slice.length ≤ maxChars := by
  fun_induction hardSplit text maxChars with
  | case1 => exact fun slice hslice => absurd hslice not_mem_nil
  | case2 text hend ih =>
    intro slice hslice
    rcases mem_cons.mp hslice with rfl | hslice
    · exact length_take_le ..
    · exact ih slice hslice

/-! ### Heading lines -/

theorem solid_hashes (n : ℕ) : solid (replicate n 0x23) = replicate n 0x23 := by
  rw [solid, filter_replicate]
  rfl

theorem takeWhile_hashes (text : Utf16) : text.takeWhile (· = 0x23) =
    replicate (text.takeWhile (· = 0x23)).length 0x23 := by
  apply eq_replicate_of_mem
  intro u hu
  simpa using mem_takeWhile_imp hu

theorem solid_of_isClosing (h : isClosing text = true) : ∃ k, solid text = replicate k 0x23 := by
  refine ⟨((text.dropWhile isSpace).takeWhile (· = 0x23)).length, ?_⟩
  generalize htext : text.dropWhile isSpace = after at h
  have hspace : solid (after.dropWhile (· = 0x23)) = [] := by
    rw [isClosing, htext] at h
    exact solid_eq_nil_iff.mpr (all_eq_true.mp h)
  have hsplit := takeWhile_append_dropWhile (p := fun u => decide (u = (0x23 : UInt16)))
    (l := after)
  rw [← solid_dropWhile, htext, ← hsplit, solid_append, hspace, append_nil, hsplit,
    takeWhile_hashes after, solid_hashes, length_replicate]

theorem lazyTitle_spec {text title : Utf16} (h : lazyTitle text = some title) :
    title ≠ [] ∧ ∃ rest, text = title ++ rest ∧ isClosing rest = true := by
  induction text generalizing title with
  | nil => cases h
  | cons u text ih =>
    rw [lazyTitle] at h
    split_ifs at h with hterm hclosing
    · cases h
      exact ⟨cons_ne_nil _ _, text, rfl, hclosing⟩
    · obtain ⟨more, hmore, rfl⟩ := Option.map_eq_some_iff.mp h
      obtain ⟨-, rest, rfl, hrest⟩ := ih hmore
      exact ⟨cons_ne_nil _ _, rest, rfl, hrest⟩

theorem take_takeWhile (p : UInt16 → Bool) (text : Utf16) :
    text.take (text.takeWhile p).length = text.takeWhile p :=
  (prefix_iff_eq_take.mp ( takeWhile_prefix p)).symm

theorem take_of_le_takeWhile {p : UInt16 → Bool} {n : ℕ} (h : n ≤ (text.takeWhile p).length) :
    text.take n = (text.takeWhile p).take n := by
  rw [← take_takeWhile p text, take_take, Nat.min_eq_left h]

/-- A heading line is its title with hashes in front and behind, and white space. -/
theorem headingTitle_spec {line title : Utf16} (h : headingTitle line = some title) :
    title ≠ [] ∧ ∃ j k, 1 ≤ j ∧
      solid line = replicate j 0x23 ++ solid title ++ replicate k 0x23 := by
  rw [headingTitle] at h
  split_ifs at h with hcount
  obtain ⟨n, hn, hlazy⟩ := exists_of_findSome?_eq_some h
  obtain ⟨hne, rest, hrest, hclosing⟩ := lazyTitle_spec hlazy
  obtain ⟨k, hk⟩ := solid_of_isClosing hclosing
  refine ⟨hne, (line.takeWhile (· = 0x23)).length, k, hcount.1, ?_⟩
  have hline := take_append_drop (line.takeWhile (· = 0x23)).length line
  rw [take_takeWhile] at hline
  have hhashes := takeWhile_hashes line
  generalize line.drop (line.takeWhile (· = 0x23)).length = after at hline hn hrest
  generalize (line.takeWhile (· = 0x23)).length = j at hhashes ⊢
  have hspace : solid (after.take (n + 1)) = [] := by
    apply solid_eq_nil_iff.mpr
    intro u hu
    have hle : n + 1 ≤ (after.takeWhile isSpace).length := by
      have hlt : n < (after.takeWhile isSpace).length := by simpa using hn
      exact hlt
    rw [take_of_le_takeWhile hle] at hu
    exact mem_takeWhile_imp (mem_of_mem_take hu)
  have hafter : solid after = solid title ++ replicate k 0x23 := by
    rw [← take_append_drop (n + 1) after, solid_append, hspace, nil_append, hrest, solid_append, hk]
  rw [← hline, solid_append, hhashes, solid_hashes, hafter, append_assoc]

/-! ### Sections -/

/-- The lines in front of the first heading, and behind each heading those up to the next. -/
def sections : List Utf16 → List Utf16 × List (Utf16 × List Utf16)
  | [] => ([], [])
  | line :: lines =>
      match headingTitle line with
      | some title => ([], (title, (sections lines).1) :: (sections lines).2)
      | none => (line :: (sections lines).1, (sections lines).2)

/-- A section with nothing but white space behind its heading makes no segment. -/
def toSegment (s : Utf16 × List Utf16) : Option Segment :=
  if trim (join [0x0a] s.2) = [] then none else some ⟨s.1, trim (join [0x0a] s.2)⟩

theorem pushSegment_eq (segments : List Segment) (title : Utf16) (buffer : List Utf16) :
    pushSegment segments (join [0x0a] buffer) title =
      segments ++ (toSegment (title, buffer)).toList := by
  rw [pushSegment, toSegment]
  split_ifs
  · exact (append_nil segments).symm
  · rfl

theorem headings_loop (lines : List Utf16) (segments : List Segment) (title : Utf16)
    (buffer : List Utf16) :
    let s := lines.foldl headingStep (segments, title, buffer)
    pushSegment s.1 (join [0x0a] s.2.2) s.2.1 = segments ++
      ((title, buffer ++ (sections lines).1) :: (sections lines).2).filterMap toSegment := by
  induction lines generalizing segments title buffer with
  | nil =>
    rw [sections, append_nil]
    exact pushSegment_eq segments title buffer
  | cons line lines ih =>
    rw [foldl_cons, headingStep, sections]
    cases hline : headingTitle line with
    | none =>
      have hrest := ih segments title (buffer ++ [line])
      rw [append_assoc] at hrest
      exact hrest
    | some next =>
      have hrest := ih (pushSegment segments (join [0x0a] buffer) title) next []
      rw [append_nil, filterMap_cons]
      dsimp only at hrest ⊢
      rw [hrest, pushSegment_eq, append_assoc]
      cases toSegment (title, buffer) <;> rfl

theorem splitByHeadings_eq (text : Utf16) :
    splitByHeadings text = (([], (sections (splitLines text)).1) ::
      (sections (splitLines text)).2).filterMap toSegment :=
  headings_loop (splitLines text) [] [] []

theorem title_ne_nil {lines : List Utf16} : ∀ s ∈ (sections lines).2, s.1 ≠ [] := by
  induction lines with
  | nil => exact fun s hs => absurd hs not_mem_nil
  | cons line lines ih =>
    rw [sections]
    cases hline : headingTitle line with
    | none => exact ih
    | some title =>
      intro s hs
      rcases mem_cons.mp hs with rfl | hs
      · exact (headingTitle_spec hline).1
      · exact ih s hs

/-! ### The chunks -/

def bodies (chunks : List Chunk) : Utf16 := chunks.flatMap Chunk.body

variable (chunks : List Chunk)

theorem bodies_push (title body counted : Utf16) :
    bodies (push chunks title body counted) = bodies chunks ++ body := by
  simp [bodies, push]

theorem solid_pushTrimmed (title text : Utf16) :
    solid (bodies (pushTrimmed chunks title text)) = solid (bodies chunks) ++ solid text := by
  rw [pushTrimmed]
  split_ifs with h
  · rw [trim_eq_nil_iff_solid.mp h, append_nil]
  · rw [bodies_push, solid_append, solid_trim]

variable (title : Utf16)

theorem bodies_pushSlices (slices : List Utf16) :
    bodies (pushSlices title chunks slices) = bodies chunks ++ slices.flatten := by
  rw [pushSlices]
  induction slices generalizing chunks with
  | nil => exact (append_nil _).symm
  | cons slice slices ih =>
    rw [foldl_cons, ih, bodies_push, flatten_cons, append_assoc]

theorem solid_glue (text more : Utf16) : solid (glue text more) = solid text ++ solid more := by
  rw [glue, solid_append]
  split_ifs with h
  · rw [h]
  · rw [solid_append]
    have hbreak : solid (ascii "\n\n") = [] := by decide
    rw [hbreak, append_nil]

/-- A target is 2000 at least, if it is a number. -/
def Fits (target : Num) : Prop := target = .nan ∨ (Num.nat 2000).le target = true

variable (d : Doubles)

theorem fits_targetChars (targetTokens : Num) : Fits (targetChars d targetTokens) := by
  rw [targetChars]
  generalize floor (d.mul targetTokens (.nat approxCharsPerToken)) = x
  by_cases hx : x = .nan
  · left
    rw [hx]
    rfl
  · exact .inr (Num.le_max_left nofun hx)

variable {target : Num}

theorem Fits.count_ne_zero (h : Fits target) {n : ℕ} (hn : above target n = true) :
    count target ≠ 0 := by
  rcases h with rfl | h
  · exact absurd hn Bool.false_ne_true
  · cases target with
    | nan => exact absurd h Bool.false_ne_true
    | negInf => exact absurd h Bool.false_ne_true
    | posInf => exact absurd hn Bool.false_ne_true
    | fin q =>
      have hle : ((2000 : ℕ) : ℚ) ≤ q := by simpa [Num.nat] using h
      have hfloor : (2000 : ℤ) ≤ q.floor := Rat.le_floor_iff.mpr (by exact_mod_cast hle)
      rw [count]
      omega

theorem above_mono {m n : ℕ} (hle : m ≤ n) (h : above target n = false) :
    above target m = false := by
  by_contra hm
  have hlt := Num.lt_of_lt_of_le (Bool.not_eq_false _ ▸ hm) (Num.le_nat.mpr hle)
  rw [above, hlt] at h
  exact Bool.noConfusion h

theorem above_count (hfits : Fits target) {n : ℕ} (h : above target n = true) :
    above target (count target) = false := by
  have hne := hfits.count_ne_zero h
  cases target with
  | nan => rfl
  | negInf => exact absurd rfl hne
  | posInf => rfl
  | fin q =>
    have hle : ((count (.fin q) : ℕ) : ℚ) ≤ q := by
      have hcount : ((count (.fin q) : ℕ) : ℤ) = q.floor := by
        rw [count] at hne ⊢
        omega
      have hcast : ((count (.fin q) : ℕ) : ℚ) = (q.floor : ℚ) := by exact_mod_cast hcount
      rw [hcast]
      exact Rat.floor_le q
    exact Num.not_lt_of_le (by simpa [Num.nat] using hle)

/-! ### The paragraphs of a long section -/

theorem paragraphStep_solid (hfits : Fits target) (title : Utf16) (s : List Chunk × Utf16)
    (p : Utf16) :
    solid (bodies (paragraphStep target title s p).1) ++ solid (paragraphStep target title s p).2 =
      solid (bodies s.1) ++ solid s.2 ++ solid p := by
  rw [paragraphStep]
  split_ifs with hover hlong
  · dsimp only
    rw [bodies_pushSlices, flatten_hardSplit (hfits.count_ne_zero hlong), solid_append,
      solid_pushTrimmed]
    exact append_nil _
  · dsimp only
    rw [solid_pushTrimmed]
  · dsimp only
    rw [solid_glue, append_assoc]

theorem paragraphs_solid (hfits : Fits target) (title : Utf16) (paragraphs : List Utf16)
    (s : List Chunk × Utf16) :
    let s' := paragraphs.foldl (paragraphStep target title) s
    solid (bodies s'.1) ++ solid s'.2 =
      solid (bodies s.1) ++ solid s.2 ++ paragraphs.flatMap solid := by
  induction paragraphs generalizing s with
  | nil => exact (append_nil _).symm
  | cons p paragraphs ih =>
    have hrest := ih (paragraphStep target title s p)
    rw [paragraphStep_solid hfits] at hrest
    rw [flatMap_cons, ← append_assoc]
    exact hrest

theorem solid_heading : solid (heading title) = ascii "##" ++ solid title := by rfl

/-- What a segment is in the chunks, apart from white space. -/
def shownSegment (seg : Segment) : Utf16 :=
  (if seg.title = [] then [] else ascii "##" ++ solid seg.title) ++ solid seg.body

theorem packParagraphs_solid (hfits : Fits target) (seg : Segment) (chunks : List Chunk) :
    solid (bodies (packParagraphs target seg chunks)) =
      solid (bodies chunks) ++ shownSegment seg := by
  have hrun := paragraphs_solid hfits seg.title (splitByBlankLines seg.body)
    (chunks, if seg.title = [] then [] else heading seg.title)
  rw [solid_splitByBlankLines, append_assoc] at hrun
  rw [packParagraphs, solid_pushTrimmed]
  refine hrun.trans ?_
  rw [shownSegment]
  split_ifs
  · rfl
  · rw [solid_heading]

theorem solid_segText (seg : Segment) : solid (segText seg) = shownSegment seg := by
  rw [segText, shownSegment]
  split_ifs
  · rfl
  · have hbreak : solid (ascii "\n\n") = [] := by decide
    rw [solid_append, solid_append, hbreak, append_nil, solid_heading]

/-- The chunks and what is to be flushed. -/
def Packing.held (s : Packing) : Utf16 := solid (bodies s.chunks) ++ solid s.currentBody

theorem packStep_held (hfits : Fits target) (s : Packing) (seg : Segment) :
    (packStep target s seg).held = s.held ++ shownSegment seg := by
  rw [packStep]
  split_ifs
  · rw [Packing.held, Packing.held, flush, solid_pushTrimmed, solid_segText]
  · rw [Packing.held, Packing.held, solid_glue, solid_segText, append_assoc]
  · rw [Packing.held, packParagraphs_solid hfits, flush, solid_pushTrimmed]
    exact append_nil _

theorem pack_held (hfits : Fits target) (segments : List Segment) (s : Packing) :
    (segments.foldl (packStep target) s).held = s.held ++ segments.flatMap shownSegment := by
  induction segments generalizing s with
  | nil => exact (append_nil _).symm
  | cons seg segments ih =>
    rw [foldl_cons, ih, packStep_held hfits, flatMap_cons, append_assoc]

/-- Apart from white space the bodies are the segments, one after the other. -/
theorem solid_bodies (text : Utf16) (targetTokens : Num) :
    solid (bodies (splitMarkdownChunks d text targetTokens)) =
      if trim text = [] then [] else (splitByHeadings text).flatMap shownSegment := by
  rw [splitMarkdownChunks]
  split_ifs
  · rfl
  · dsimp only
    rw [flush, solid_pushTrimmed]
    exact pack_held (fits_targetChars d targetTokens) (splitByHeadings text) ⟨[], [], []⟩

/-! ### Numbers and lengths -/

/-- Chunks that come from others by pushing bodies of a kind. -/
def Pushed (P : Utf16 → Prop) : List Chunk → List Chunk → Prop :=
  Relation.ReflTransGen fun chunks chunks' =>
    ∃ title body counted, P body ∧ chunks' = push chunks title body counted

variable {P : Utf16 → Prop} {chunks chunks' : List Chunk}

theorem Pushed.subset (h : Pushed P chunks chunks') : ∀ c ∈ chunks, c ∈ chunks' := by
  induction h with
  | refl => exact fun c hc => hc
  | tail _ hlast ih =>
    obtain ⟨title, body, counted, -, rfl⟩ := hlast
    exact fun c hc => mem_append_left _ (ih c hc)

def Numbered (chunks : List Chunk) : Prop := chunks.map Chunk.index = range chunks.length

theorem Pushed.numbered (h : Pushed P chunks chunks') (hstart : Numbered chunks) :
    Numbered chunks' := by
  induction h with
  | refl => exact hstart
  | tail _ hlast ih =>
    obtain ⟨title, body, counted, -, rfl⟩ := hlast
    rw [Numbered, push, map_append, ih, length_append, length_singleton, range_succ]
    rfl

theorem Pushed.forall (h : Pushed P chunks chunks') (hstart : ∀ c ∈ chunks, P c.body) :
    ∀ c ∈ chunks', P c.body := by
  induction h with
  | refl => exact hstart
  | tail _ hlast ih =>
    obtain ⟨title, body, counted, hbody, rfl⟩ := hlast
    intro c hc
    rcases mem_append.mp hc with hc | hc
    · exact ih c hc
    · rw [mem_singleton.mp hc]
      exact hbody

theorem pushed_push {body : Utf16} (counted : Utf16) (h : P body) :
    Pushed P chunks (push chunks title body counted) :=
  Relation.ReflTransGen.single ⟨title, body, counted, h, rfl⟩

theorem pushed_pushTrimmed (h : P (trim text)) :
    Pushed P chunks (pushTrimmed chunks title text) := by
  rw [pushTrimmed]
  split_ifs
  · exact Relation.ReflTransGen.refl
  · exact pushed_push title text h

theorem subset_pushTrimmed (title text : Utf16) :
    ∀ c ∈ chunks, c ∈ pushTrimmed chunks title text := by
  have hpushed : Pushed (fun _ => True) chunks (pushTrimmed chunks title text) :=
    pushed_pushTrimmed title trivial
  exact hpushed.subset

theorem pushed_pushSlices {slices : List Utf16} (h : ∀ slice ∈ slices, P slice) :
    Pushed P chunks (pushSlices title chunks slices) := by
  induction slices generalizing chunks with
  | nil => exact Relation.ReflTransGen.refl
  | cons slice slices ih =>
    have hfirst : Pushed P chunks (push chunks title slice slice) :=
      pushed_push title slice (h slice (mem_cons_self ..))
    exact hfirst.trans (ih fun x hx => h x (mem_cons_of_mem _ hx))

/-- A body that is not above the target, as far as it is strict. -/
def Within (strict : Prop) (target : Num) (body : Utf16) : Prop :=
  strict → above target body.length = false

variable {strict : Prop}

theorem Within.trim (h : Within strict target text) : Within strict target (trim text) :=
  fun hstrict => above_mono (length_trim_le text) (h hstrict)

theorem above_zero (hfits : Fits target) : above target 0 = false := by
  by_contra h
  have hover : above target 0 = true := Bool.not_eq_false _ ▸ h
  exact absurd (above_mono (Nat.zero_le _) (above_count hfits hover)) h

theorem length_glue (text more : Utf16) :
    (glue text more).length ≤ text.length + more.length + 2 := by
  rw [glue, length_append]
  split_ifs
  · exact (Nat.zero_add _).le.trans (by omega)
  · rw [length_append, show (ascii "\n\n").length = 2 from rfl]
    omega

theorem paragraphStep_pushed (hfits : Fits target) (title : Utf16) (s : List Chunk × Utf16)
    (p : Utf16) (h : Within strict target (trim s.2)) :
    Pushed (Within strict target) s.1 (paragraphStep target title s p).1 ∧
      Within strict target (trim (paragraphStep target title s p).2) := by
  rw [paragraphStep]
  have hflush : Pushed (Within strict target) s.1 (pushTrimmed s.1 title s.2) :=
    pushed_pushTrimmed title h
  split_ifs with hover hlong
  · constructor
    · refine hflush.trans (pushed_pushSlices title fun slice hslice _ => ?_)
      exact above_mono (length_hardSplit _ p slice hslice) (above_count hfits hlong)
    · exact Within.trim fun _ => above_zero hfits
  · exact ⟨hflush, Within.trim fun _ => Bool.eq_false_iff.mpr hlong⟩
  · refine ⟨Relation.ReflTransGen.refl, Within.trim fun _ => ?_⟩
    exact above_mono (length_glue s.2 p) (Bool.eq_false_iff.mpr hover)

theorem paragraphs_pushed (hfits : Fits target) (title : Utf16) (paragraphs : List Utf16)
    (s : List Chunk × Utf16) (h : Within strict target (trim s.2)) :
    let s' := paragraphs.foldl (paragraphStep target title) s
    Pushed (Within strict target) s.1 s'.1 ∧ Within strict target (trim s'.2) := by
  induction paragraphs generalizing s with
  | nil => exact ⟨Relation.ReflTransGen.refl, h⟩
  | cons p paragraphs ih =>
    obtain ⟨hfirst, hpara⟩ := paragraphStep_pushed hfits title s p h
    obtain ⟨hrest, hlast⟩ := ih _ hpara
    exact ⟨hfirst.trans hrest, hlast⟩

/-- The heading of a segment is not above the target. -/
def Short (target : Num) (title : Utf16) : Prop :=
  above target (trim (heading title)).length = false

theorem packParagraphs_pushed (hfits : Fits target) (seg : Segment) (chunks : List Chunk)
    (hshort : strict → seg.title ≠ [] → Short target seg.title) :
    Pushed (Within strict target) chunks (packParagraphs target seg chunks) := by
  have hpara : Within strict target
      (trim (if seg.title = [] then [] else heading seg.title)) := by
    intro hstrict
    split_ifs with htitle
    · exact above_zero hfits
    · exact hshort hstrict htitle
  obtain ⟨hrun, hlast⟩ := paragraphs_pushed hfits seg.title (splitByBlankLines seg.body)
    (chunks, if seg.title = [] then [] else heading seg.title) hpara
  exact hrun.trans (pushed_pushTrimmed seg.title hlast)

theorem packStep_pushed (hfits : Fits target) (s : Packing) (seg : Segment)
    (h : Within strict target s.currentBody)
    (hshort : strict → seg.title ≠ [] → Short target seg.title) :
    Pushed (Within strict target) s.chunks (packStep target s seg).chunks ∧
      Within strict target (packStep target s seg).currentBody := by
  have hflush : Pushed (Within strict target) s.chunks (flush s).chunks :=
    pushed_pushTrimmed s.currentTitle h.trim
  rw [packStep]
  split_ifs with hfit hover
  · exact ⟨hflush, fun _ => Num.not_lt_of_le hfit⟩
  · refine ⟨Relation.ReflTransGen.refl, fun _ => ?_⟩
    exact above_mono (length_glue s.currentBody (segText seg)) (Bool.eq_false_iff.mpr hover)
  · exact ⟨hflush.trans (packParagraphs_pushed hfits seg _ hshort), fun _ => above_zero hfits⟩

theorem pack_pushed (hfits : Fits target) (segments : List Segment) (s : Packing)
    (h : Within strict target s.currentBody)
    (hshort : strict → ∀ seg ∈ segments, seg.title ≠ [] → Short target seg.title) :
    Pushed (Within strict target) s.chunks (segments.foldl (packStep target) s).chunks ∧
      Within strict target (segments.foldl (packStep target) s).currentBody := by
  induction segments generalizing s with
  | nil => exact ⟨Relation.ReflTransGen.refl, h⟩
  | cons seg segments ih =>
    obtain ⟨hfirst, hbody⟩ := packStep_pushed hfits s seg h
      fun hstrict => hshort hstrict seg (mem_cons_self ..)
    obtain ⟨hrest, hlast⟩ := ih _ hbody
      fun hstrict seg' hseg' => hshort hstrict seg' (mem_cons_of_mem _ hseg')
    exact ⟨hfirst.trans hrest, hlast⟩

theorem split_pushed (text : Utf16) (targetTokens : Num)
    (hshort : strict → ∀ seg ∈ splitByHeadings text, seg.title ≠ [] →
      Short (targetChars d targetTokens) seg.title) :
    Pushed (Within strict (targetChars d targetTokens)) []
      (splitMarkdownChunks d text targetTokens) := by
  rw [splitMarkdownChunks]
  split_ifs
  · exact Relation.ReflTransGen.refl
  · have hfits := fits_targetChars d targetTokens
    obtain ⟨hrun, hlast⟩ := pack_pushed hfits (splitByHeadings text) ⟨[], [], []⟩
      (fun _ => above_zero hfits) hshort
    exact hrun.trans (pushed_pushTrimmed _ hlast.trim)

theorem numbered_split (text : Utf16) (targetTokens : Num) :
    Numbered (splitMarkdownChunks d text targetTokens) := by
  have hpushed : Pushed (Within False (targetChars d targetTokens)) []
      (splitMarkdownChunks d text targetTokens) := split_pushed d text targetTokens False.elim
  exact hpushed.numbered rfl

/-! ### Headings that are too long -/

theorem mem_pushTrimmed (h : solid text ≠ []) (title : Utf16) (chunks : List Chunk) :
    ∃ c ∈ pushTrimmed chunks title text, c.body = trim text := by
  rw [pushTrimmed, if_neg (trim_eq_nil_iff_solid.not.mpr h)]
  exact ⟨_, mem_append_right _ (mem_singleton.mpr rfl), rfl⟩

theorem solid_heading_ne_nil : solid (heading title) ≠ [] := by exact cons_ne_nil _ _

variable {seg : Segment}

theorem packParagraphs_long (hfits : Fits target) (htitle : seg.title ≠ [])
    (hbody : solid seg.body ≠ []) (hlong : ¬Short target seg.title) (chunks : List Chunk) :
    ∃ c ∈ packParagraphs target seg chunks, c.body = trim (heading seg.title) := by
  rw [packParagraphs, if_neg htitle]
  cases hparagraphs : splitByBlankLines seg.body with
  | nil =>
    have hsolid := solid_splitByBlankLines seg.body
    rw [hparagraphs] at hsolid
    exact absurd hsolid.symm hbody
  | cons p paragraphs =>
    have hover : above target ((heading seg.title).length + p.length + 2) = true := by
      by_contra hunder
      refine hlong (above_mono ?_ (Bool.eq_false_iff.mpr hunder))
      exact (length_trim_le _).trans (by omega)
    obtain ⟨c, hc, hcbody⟩ := mem_pushTrimmed (solid_heading_ne_nil seg.title) seg.title chunks
    have hfirst : c ∈ (paragraphStep target seg.title (chunks, heading seg.title) p).1 := by
      rw [paragraphStep, if_pos hover]
      split_ifs
      · have hslices : Pushed (fun _ => True) (pushTrimmed chunks seg.title (heading seg.title))
            (pushSlices seg.title (pushTrimmed chunks seg.title (heading seg.title))
              (hardSplit p (count target))) := pushed_pushSlices seg.title fun _ _ => trivial
        exact hslices.subset c hc
      · exact hc
    rw [foldl_cons]
    generalize paragraphStep target seg.title (chunks, heading seg.title) p = s at hfirst
    obtain ⟨hrun, -⟩ := paragraphs_pushed hfits seg.title paragraphs s False.elim
    exact ⟨c, subset_pushTrimmed _ _ c (Pushed.subset hrun c hfirst), hcbody⟩

theorem packStep_long (hfits : Fits target) (htitle : seg.title ≠ [])
    (hbody : solid seg.body ≠ []) (hlong : ¬Short target seg.title) (s : Packing) :
    ∃ c ∈ (packStep target s seg).chunks, c.body = trim (heading seg.title) := by
  have hunfit : ¬(Num.nat (segText seg).length).le target = true := by
    intro hfit
    refine hlong (above_mono ?_ (Num.not_lt_of_le hfit))
    rw [segText, if_neg htitle, length_append, length_append]
    exact (length_trim_le _).trans (by omega)
  rw [packStep]
  rw [if_neg hunfit]
  exact packParagraphs_long hfits htitle hbody hlong _

theorem pack_long (hfits : Fits target) {segments : List Segment} (hseg : seg ∈ segments)
    (htitle : seg.title ≠ []) (hbody : solid seg.body ≠ []) (hlong : ¬Short target seg.title)
    (s : Packing) :
    ∃ c ∈ (segments.foldl (packStep target) s).chunks, c.body = trim (heading seg.title) := by
  induction segments generalizing s with
  | nil => exact absurd hseg not_mem_nil
  | cons first segments ih =>
    rcases mem_cons.mp hseg with rfl | hseg
    · obtain ⟨c, hc, hcbody⟩ := packStep_long hfits htitle hbody hlong s
      obtain ⟨hrun, -⟩ := pack_pushed hfits segments (packStep target s seg) False.elim False.elim
      exact ⟨c, hrun.subset c hc, hcbody⟩
    · exact ih hseg _

/-! ### What is lost -/

/-- A heading that is nothing but markers. -/
def Bare (title : Utf16) : Prop := ∀ u ∈ title, isSpace u = true ∨ u = 0x23

/-- What a line may be in the chunks, apart from white space: itself; a heading its title
with any markers. -/
def Shows (line shown : Utf16) : Prop :=
  match headingTitle line with
  | none => shown = solid line
  | some title =>
      (∃ j k, shown = replicate j 0x23 ++ solid title ++ replicate k 0x23) ∨
        (Bare title ∧ ∃ j, shown = replicate j 0x23)

/-- Every line is in the bodies once and in order. -/
def Lossless (text : Utf16) (chunks : List Chunk) : Prop :=
  ∃ shown, List.Forall₂ Shows (splitLines text) shown ∧ solid (bodies chunks) = shown.flatten

/-- The lines hold nothing but white space. -/
def Blank (lines : List Utf16) : Prop := lines.flatMap solid = []

instance (lines : List Utf16) : Decidable (Blank lines) := inferInstanceAs (Decidable (_ = _))

/-- The sections of a text that is split well: one without a body has no text in its heading,
and the heading of any other fits. -/
def Meets (target : Num) (text : Utf16) : Prop :=
  ∀ s ∈ (sections (splitLines text)).2,
    (Blank s.2 → Bare s.1) ∧ (¬Blank s.2 → Short target s.1)

def shownSection (s : Utf16 × List Utf16) : Utf16 :=
  if Blank s.2 then []
  else (if s.1 = [] then [] else ascii "##" ++ solid s.1) ++ s.2.flatMap solid

variable (lines : List Utf16)

theorem trim_join_eq_nil_iff : trim (join [0x0a] lines) = [] ↔ Blank lines := by
  rw [trim_eq_nil_iff_solid, solid_join _ _ rfl, Blank]

theorem shown_segments (sections : List (Utf16 × List Utf16)) :
    (sections.filterMap toSegment).flatMap shownSegment = sections.flatMap shownSection := by
  induction sections with
  | nil => rfl
  | cons s sections ih =>
    rw [filterMap_cons, flatMap_cons, toSegment, shownSection]
    by_cases hblank : Blank s.2
    · rw [if_pos ((trim_join_eq_nil_iff s.2).mpr hblank), if_pos hblank]
      exact ih
    · rw [if_neg ((trim_join_eq_nil_iff s.2).not.mpr hblank), if_neg hblank]
      rw [flatMap_cons, ih, shownSegment, solid_trim, solid_join _ _ rfl]

theorem splitByHeadings_blank (h : trim text = []) : splitByHeadings text = [] := by
  have hlines : Blank (splitLines text) := by
    rw [Blank, solid_splitLines]
    exact trim_eq_nil_iff_solid.mp h
  have hsections : sections (splitLines text) = (splitLines text, []) := by
    generalize splitLines text = lines at hlines
    induction lines with
    | nil => rfl
    | cons line lines ih =>
      rw [Blank, flatMap_cons, append_eq_nil_iff] at hlines
      have hnone : headingTitle line = none := by
        cases hline : headingTitle line with
        | none => rfl
        | some title =>
          obtain ⟨-, j, k, hj, hsolid⟩ := headingTitle_spec hline
          rw [hlines.1] at hsolid
          have hlength := congrArg length hsolid
          rw [length_append, length_append, length_replicate] at hlength
          simp only [length_nil] at hlength
          omega
      rw [sections, hnone, ih hlines.2]
  rw [splitByHeadings_eq, hsections, filterMap_cons, toSegment,
    if_pos ((trim_join_eq_nil_iff _).mpr hlines)]
  rfl

/-- Apart from white space the bodies are the sections, one after the other. -/
theorem solid_split (text : Utf16) (targetTokens : Num) :
    solid (bodies (splitMarkdownChunks d text targetTokens)) =
      (sections (splitLines text)).1.flatMap solid ++
        (sections (splitLines text)).2.flatMap shownSection := by
  have hsegments : (splitByHeadings text).flatMap shownSegment =
      (sections (splitLines text)).1.flatMap solid ++
        (sections (splitLines text)).2.flatMap shownSection := by
    rw [splitByHeadings_eq, shown_segments, flatMap_cons]
    congr 1
    rw [shownSection, if_pos (c := ([] : Utf16) = []) rfl]
    split_ifs with hblank
    · exact hblank.symm
    · rfl
  rw [solid_bodies, ← hsegments]
  split_ifs with h
  · rw [splitByHeadings_blank h]
    rfl
  · rfl

/-! ### Letters -/

/-- What a text holds apart from white space and hashes. -/
def letters (text : Utf16) : Utf16 := (solid text).filter fun u => u ≠ 0x23

theorem letters_append (a b : Utf16) : letters (a ++ b) = letters a ++ letters b := by
  rw [letters, solid_append, filter_append]
  rfl

theorem letters_solid (text : Utf16) : letters (solid text) = letters text := by
  have hsolid : solid (solid text) = solid text := by
    rw [solid, solid, filter_filter]
    simp only [Bool.and_self]
  rw [letters, letters, hsolid]

theorem letters_hashes (n : ℕ) : letters (replicate n 0x23) = [] := by
  rw [letters, solid_hashes, filter_replicate]
  rfl

theorem letters_eq_nil_iff : letters text = [] ↔ Bare text := by
  simp only [letters, solid, filter_filter, filter_eq_nil_iff, Bare]
  constructor
  · intro h u hu
    by_contra hne
    exact h u hu (by simpa [not_or, and_comm] using hne)
  · intro h u hu hu'
    have hne : ¬u = 0x23 ∧ isSpace u = false := by simpa using hu'
    rcases h u hu with hspace | hhash
    · rw [hne.2] at hspace
      exact Bool.noConfusion hspace
    · exact hne.1 hhash

/-- The letters of a line without its markers. -/
def lineLetters (line : Utf16) : Utf16 := letters ((headingTitle line).getD line)

theorem Shows.letters_eq {line shown : Utf16} (h : Shows line shown) :
    letters shown = lineLetters line := by
  rw [Shows] at h
  rw [lineLetters]
  cases hline : headingTitle line with
  | none =>
    rw [hline] at h
    rw [h]
    exact letters_solid line
  | some title =>
    rw [hline] at h
    rcases h with ⟨j, k, rfl⟩ | ⟨hbare, j, rfl⟩
    · rw [letters_append, letters_append, letters_hashes, letters_hashes, letters_solid, append_nil]
      rfl
    · rw [letters_hashes]
      exact (letters_eq_nil_iff.mpr hbare).symm

theorem letters_shown {lines shown : List Utf16} (h : List.Forall₂ Shows lines shown) :
    letters shown.flatten = lines.flatMap lineLetters := by
  induction h with
  | nil => rfl
  | cons hline _ ih =>
    rw [flatten_cons, letters_append, hline.letters_eq, ih, flatMap_cons]

/-- The letters of a heading that its section loses. -/
def lost (s : Utf16 × List Utf16) : ℕ := if Blank s.2 then (letters s.1).length else 0

theorem letters_flatMap_solid (line : Utf16) (lines : List Utf16) :
    letters ((line :: lines).flatMap solid) = letters line ++ letters (lines.flatMap solid) := by
  rw [flatMap_cons, letters_append, letters_solid]

/-- The letters of the lines are those of the sections and those that are lost. -/
theorem letters_sections :
    (lines.flatMap lineLetters).length =
      (letters ((sections lines).1.flatMap solid ++
        (sections lines).2.flatMap shownSection)).length + ((sections lines).2.map lost).sum := by
  induction lines with
  | nil => rfl
  | cons line lines ih =>
    rw [flatMap_cons, length_append, ih, sections, lineLetters]
    cases hline : headingTitle line with
    | none =>
      dsimp only [Option.getD]
      rw [letters_append, letters_append, letters_flatMap_solid]
      simp only [length_append]
      omega
    | some title =>
      dsimp only [Option.getD]
      rw [flatMap_cons, map_cons, sum_cons, lost, shownSection]
      have hnone : letters [] = [] := rfl
      have hne := (headingTitle_spec hline).1
      split_ifs with hblank
      · rw [hblank]
        simp only [letters_append, length_append, flatMap_nil, hnone, length_nil]
        omega
      · have hmarks : letters (ascii "##") = [] := by decide
        simp only [letters_append, letters_solid, hmarks, length_append, flatMap_nil,
          hnone, length_nil]
        omega

variable {targetTokens : Num}

theorem bare_of_lossless {d : Doubles}
    (h : Lossless text (splitMarkdownChunks d text targetTokens)) :
    ∀ s ∈ (sections (splitLines text)).2, Blank s.2 → Bare s.1 := by
  obtain ⟨shown, hshown, hbodies⟩ := h
  rw [solid_split] at hbodies
  have hcount := letters_sections (splitLines text)
  rw [hbodies, letters_shown hshown] at hcount
  have hsum : ((sections (splitLines text)).2.map lost).sum = 0 := by omega
  intro s hs hblank
  have hlost : lost s = 0 := sum_eq_zero_iff.mp hsum _ (mem_map_of_mem hs)
  rw [lost, if_pos hblank] at hlost
  exact letters_eq_nil_iff.mp (eq_nil_of_length_eq_zero hlost)

theorem shown_of_bare (h : ∀ s ∈ (sections lines).2, Blank s.2 → Bare s.1) :
    ∃ shown, List.Forall₂ Shows lines shown ∧
      (sections lines).1.flatMap solid ++ (sections lines).2.flatMap shownSection =
        shown.flatten := by
  induction lines with
  | nil => exact ⟨[], List.Forall₂.nil, rfl⟩
  | cons line lines ih =>
    rw [sections] at h ⊢
    cases hline : headingTitle line with
    | none =>
      rw [hline] at h
      obtain ⟨shown, hshown, hflat⟩ := ih h
      refine ⟨solid line :: shown, List.Forall₂.cons ?_ hshown, ?_⟩
      · rw [Shows, hline]
      · rw [flatten_cons, ← hflat, flatMap_cons, append_assoc]
    | some title =>
      rw [hline] at h
      obtain ⟨shown, hshown, hflat⟩ := ih fun s hs => h s (mem_cons_of_mem _ hs)
      rw [flatMap_cons, shownSection, flatMap_nil, nil_append]
      by_cases hblank : Blank (sections lines).1
      · refine ⟨[] :: shown, List.Forall₂.cons ?_ hshown, ?_⟩
        · rw [Shows, hline]
          exact .inr ⟨h _ (mem_cons_self ..) hblank, 0, rfl⟩
        · rw [if_pos hblank, flatten_cons, ← hflat, hblank]
          rfl
      · refine ⟨(ascii "##" ++ solid title) :: shown, List.Forall₂.cons ?_ hshown, ?_⟩
        · rw [Shows, hline]
          exact .inl ⟨2, 0, (append_nil _).symm⟩
        · rw [if_neg hblank, if_neg (headingTitle_spec hline).1, flatten_cons, ← hflat,
            append_assoc]

theorem lossless_of_bare {d : Doubles}
    (h : ∀ s ∈ (sections (splitLines text)).2, Blank s.2 → Bare s.1) :
    Lossless text (splitMarkdownChunks d text targetTokens) := by
  obtain ⟨shown, hshown, hflat⟩ := shown_of_bare (splitLines text) h
  exact ⟨shown, hshown, (solid_split d text targetTokens).trans hflat⟩

/-! ### The result -/

theorem mem_splitByHeadings {s : Utf16 × List Utf16} (hs : s ∈ (sections (splitLines text)).2)
    (hfilled : ¬Blank s.2) :
    ∃ seg ∈ splitByHeadings text, seg.title = s.1 ∧ solid seg.body ≠ [] := by
  have hseg : toSegment s = some ⟨s.1, trim (join [0x0a] s.2)⟩ := by
    rw [toSegment, if_neg ((trim_join_eq_nil_iff s.2).not.mpr hfilled)]
  refine ⟨⟨s.1, trim (join [0x0a] s.2)⟩, ?_, rfl, ?_⟩
  · rw [splitByHeadings_eq]
    exact mem_filterMap.mpr ⟨s, mem_cons_of_mem _ hs, hseg⟩
  · rw [solid_trim, solid_join _ _ rfl]
    exact hfilled

theorem section_of_segment (hseg : seg ∈ splitByHeadings text) (htitle : seg.title ≠ []) :
    ∃ s ∈ (sections (splitLines text)).2, ¬Blank s.2 ∧ s.1 = seg.title := by
  rw [splitByHeadings_eq] at hseg
  obtain ⟨s, hs, hmade⟩ := mem_filterMap.mp hseg
  rw [toSegment] at hmade
  split_ifs at hmade with hblank
  cases hmade
  rcases mem_cons.mp hs with rfl | hs
  · exact absurd rfl htitle
  · exact ⟨s, hs, (trim_join_eq_nil_iff s.2).not.mp hblank, rfl⟩

theorem trim_ne_nil_of_segment (hseg : seg ∈ splitByHeadings text) : trim text ≠ [] := by
  intro h
  rw [splitByHeadings_blank h] at hseg
  exact absurd hseg not_mem_nil

/-- A heading with a body behind it that is above the target is a body of its own. -/
theorem above_of_long {d : Doubles} {s : Utf16 × List Utf16}
    (hs : s ∈ (sections (splitLines text)).2) (hfilled : ¬Blank s.2)
    (hlong : ¬Short (targetChars d targetTokens) s.1) :
    ∃ c ∈ splitMarkdownChunks d text targetTokens,
      above (targetChars d targetTokens) c.body.length = true := by
  obtain ⟨seg, hseg, htitle, hbody⟩ := mem_splitByHeadings hs hfilled
  have hne : seg.title ≠ [] := htitle ▸ title_ne_nil s hs
  obtain ⟨c, hc, hcbody⟩ := pack_long (fits_targetChars d targetTokens) hseg hne hbody
    (htitle ▸ hlong) ⟨[], [], []⟩
  refine ⟨c, ?_, ?_⟩
  · rw [splitMarkdownChunks, if_neg (trim_ne_nil_of_segment hseg)]
    exact subset_pushTrimmed _ _ c hc
  · rw [hcbody, htitle]
    rw [Short, Bool.not_eq_false] at hlong
    exact hlong

/-- The chunks are numbered, hold the text and keep to the target just if every heading with
text has a body, and none with a body is too long. -/
theorem chunks_exact (d : Doubles) (text : Utf16) (targetTokens : Num) :
    (Numbered (splitMarkdownChunks d text targetTokens) ∧
      Lossless text (splitMarkdownChunks d text targetTokens) ∧
      ∀ c ∈ splitMarkdownChunks d text targetTokens,
        above (targetChars d targetTokens) c.body.length = false) ↔
      Meets (targetChars d targetTokens) text := by
  constructor
  · rintro ⟨-, hlossless, hsized⟩ s hs
    refine ⟨bare_of_lossless hlossless s hs, fun hfilled => ?_⟩
    by_contra hlong
    obtain ⟨c, hc, habove⟩ := above_of_long hs hfilled hlong
    rw [hsized c hc] at habove
    exact Bool.noConfusion habove
  · intro h
    refine ⟨numbered_split d text targetTokens, lossless_of_bare fun s hs => (h s hs).1, ?_⟩
    have hpushed : Pushed (Within True (targetChars d targetTokens)) []
        (splitMarkdownChunks d text targetTokens) := by
      apply split_pushed
      intro _ seg hseg htitle
      obtain ⟨s, hs, hfilled, hsame⟩ := section_of_segment hseg htitle
      exact hsame ▸ (h s hs).2 hfilled
    exact fun c hc => hpushed.forall (fun c hc => absurd hc not_mem_nil) c hc trivial

/-- The first of two headings in a row is in no chunk. -/
theorem heading_lost :
    let text := ascii "# A\n# B\nx"
    let chunks := splitMarkdownChunks default text (.nat 25000)
    ¬(Numbered chunks ∧ Lossless text chunks ∧
      ∀ c ∈ chunks, above (targetChars default (.nat 25000)) c.body.length = false) := by
  rintro text chunks ⟨-, hlossless, -⟩
  have hs : (ascii "A", []) ∈ (sections (splitLines text)).2 := by decide
  have hbare := bare_of_lossless hlossless _ hs rfl 0x41 (by decide)
  exact absurd hbare (by decide)

end Ds4Studio.Web.Chunking
