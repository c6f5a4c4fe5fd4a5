import Ds4Studio.Evolution.Contracts
import Ds4Studio.Lib.UnifiedDiff

/-!
The names of files in a patch. A plain path is its own normal form, and is what is read of a name
with a side in front of it; where a side is taken off that is not there, a directory is lost.
-/

namespace Ds4Studio.Evolution.PatchInspection

open List UnifiedDiff

/-! ### Names of files -/

/-- `EvolutionCandidateError` -/
structure CandidateError where
  code : String
  message : Line
deriving DecidableEq

def trim (l : Line) : Line := ((l.dropWhile jsSpace).reverse.dropWhile jsSpace).reverse

/-- What is left of a name behind the side that stands in front of it. -/
def dropSide (name : Line) : Line :=
  if startsWith "a/".toList name || startsWith "b/".toList name then name.drop 2 else name

def devNull : Line := "/dev/null".toList

/-- The check of a candidate in front of its normal form. -/
def unsafeName (candidate : Line) : Bool :=
  candidate = [] || startsWith "\"".toList candidate || candidate.contains '\x00' ||
    candidate.any jsSpace || candidate.head? = some '/' || win32Absolute candidate

def normalizePatchPath (value : Line) : Except CandidateError (Option Line) :=
  if trim value = devNull then .ok none
  else
    let candidate := dropSide (trim value)
    if unsafeName candidate then .error ⟨"UNSAFE_PATCH_PATH", value⟩
    else
      let normalized := posixNormalize (candidate.map fun c => if c = '\\' then '/' else c)
      let normalized :=
        if startsWith "./".toList normalized then normalized.drop 2 else normalized
      if normalized = [] ∨ normalized = "..".toList ∨ startsWith "../".toList normalized then
        .error ⟨"UNSAFE_PATCH_PATH", candidate⟩
      else .ok (some normalized)

/-- A path that git writes without quotes, without white space, inside the tree. -/
structure PlainPath (p : Line) : Prop where
  chars : ∀ c ∈ p, jsSpace c = false ∧ c ≠ '\"' ∧ c ≠ '\\' ∧ 0x20 ≤ c.toNat ∧ c.toNat ≠ 0x7f
  parts : ∀ part ∈ segments p, part ≠ [] ∧ part ≠ ['.'] ∧ part ≠ ['.', '.']

/-! ### Normal paths -/

theorem segments_ne_nil (l : Line) : segments l ≠ [] := by
  cases l with
  | nil => exact cons_ne_nil _ _
  | cons c l =>
    rw [segments]
    split
    · exact cons_ne_nil _ _
    · split <;> exact cons_ne_nil _ _

theorem segments_cons (c : Char) (l : Line) : ∃ part parts, segments l = part :: parts ∧
    segments (c :: l) = if c = '/' then [] :: part :: parts else (c :: part) :: parts := by
  obtain ⟨part, parts, hl⟩ := exists_cons_of_ne_nil (segments_ne_nil l)
  refine ⟨part, parts, hl, ?_⟩
  rw [segments, hl]

theorem joinSegments_segments (l : Line) : joinSegments (segments l) = l := by
  induction l with
  | nil => rfl
  | cons c l ih =>
    obtain ⟨part, parts, hl, hc⟩ := segments_cons c l
    rw [hl] at ih
    rw [hc]
    unfold joinSegments at *
    split
    · rename_i hslash
      rw [intercalate_cons_cons, ih, hslash]
      rfl
    · cases parts with
      | nil =>
        rw [intercalate_singleton] at ih ⊢
        rw [ih]
      | cons next parts =>
        rw [intercalate_cons_cons] at ih ⊢
        rw [cons_append, cons_append, ih]

theorem nil_mem_segments_slash (l : Line) : [] ∈ segments ('/' :: l) := by
  obtain ⟨part, parts, -, hc⟩ := segments_cons '/' l
  rw [hc]
  exact mem_cons_self

theorem nil_mem_segments_last (l : Line) : [] ∈ (segments (l ++ ['/'])).tail := by
  induction l with
  | nil => decide
  | cons c l ih =>
    obtain ⟨part, parts, hl, hc⟩ := segments_cons c (l ++ ['/'])
    rw [hl] at ih
    rw [cons_append, hc]
    split
    · exact mem_cons_of_mem part ih
    · exact ih

variable {p : Line}

theorem PlainPath.ne_nil (hp : PlainPath p) : p ≠ [] := by
  rintro rfl
  exact (hp.parts [] mem_cons_self).1 rfl

theorem PlainPath.head (hp : PlainPath p) : p.head? ≠ some '/' := by
  intro hhead
  obtain ⟨l, rfl⟩ := head?_eq_some_iff.mp hhead
  exact (hp.parts [] (nil_mem_segments_slash l)).1 rfl

theorem PlainPath.last (hp : PlainPath p) : p.getLast? ≠ some '/' := by
  intro hlast
  obtain ⟨l, rfl⟩ := getLast?_eq_some_iff.mp hlast
  exact (hp.parts [] (mem_of_mem_tail (nil_mem_segments_last l))).1 rfl

theorem resolveSegments_plain {above : Bool} {parts : List Line}
    (h : ∀ part ∈ parts, part ≠ [] ∧ part ≠ ['.'] ∧ part ≠ ['.', '.']) :
    ∀ stack, resolveSegments above stack parts = parts.reverse ++ stack := by
  induction parts with
  | nil => exact fun _ => rfl
  | cons part parts ih =>
    intro stack
    obtain ⟨hnil, hdot, hup⟩ := h part mem_cons_self
    rw [resolveSegments.eq_def]
    dsimp only
    rw [if_neg (fun hor => hor.elim hnil hdot), if_neg hup,
      ih fun p hp => h p (mem_cons_of_mem part hp), reverse_cons, append_assoc, singleton_append]

theorem posixNormalize_plain (hp : PlainPath p) : posixNormalize p = p := by
  have hresolved : joinSegments (resolveSegments true [] (segments p)).reverse = p := by
    rw [resolveSegments_plain hp.parts, append_nil, reverse_reverse, joinSegments_segments]
  unfold posixNormalize
  simp only [hp.head, hp.last, decide_false, Bool.not_false, hresolved, hp.ne_nil, if_false,
    Bool.false_eq_true, nil_append, append_nil]

/-! ### Names that are read -/

theorem trim_plain {l : Line} (h : ∀ c ∈ l, jsSpace c = false) : trim l = l := by
  have hdrop : ∀ k : Line, (∀ c ∈ k, jsSpace c = false) → k.dropWhile jsSpace = k := by
    intro k hk
    cases k with
    | nil => rfl
    | cons c k => exact dropWhile_cons_of_neg (by simp [hk c mem_cons_self])
  unfold trim
  rw [hdrop l h, hdrop _ fun c hc => h c (mem_reverse.mp hc), reverse_reverse]

theorem PlainPath.start (hp : PlainPath p) (part rest : Line)
    (hpart : part = ['.'] ∨ part = ['.', '.']) : p ≠ part ++ '/' :: rest ∧ p ≠ part := by
  have hsegments : segments part = [part] ∧ part ∈ segments (part ++ '/' :: rest) := by
    obtain ⟨first, firsts, -, hslash⟩ := segments_cons '/' rest
    rcases hpart with rfl | rfl
    · refine ⟨rfl, ?_⟩
      change ['.'] ∈ segments ('.' :: '/' :: rest)
      rw [segments, hslash]
      exact mem_cons_self
    · refine ⟨rfl, ?_⟩
      change ['.', '.'] ∈ segments ('.' :: '.' :: '/' :: rest)
      rw [segments, segments, hslash]
      exact mem_cons_self
  have hbad : part ≠ ['.'] ∧ part ≠ ['.', '.'] → False := fun h => hpart.elim h.1 h.2
  constructor
  · rintro rfl
    exact hbad (hp.parts part hsegments.2).2
  · rintro rfl
    refine hbad (hp.parts p ?_).2
    rw [hsegments.1]
    exact mem_cons_self

theorem startsWith_iff {start l : Line} :
    startsWith start l = true ↔ ∃ rest, l = start ++ rest := by
  unfold startsWith
  rw [ isPrefixOf_iff_prefix]
  exact ⟨fun ⟨rest, h⟩ => ⟨rest, h.symm⟩, fun ⟨rest, h⟩ => ⟨rest, h.symm⟩⟩

/-- A name is read as the plain path that is left behind its side, unless that is absolute. -/
theorem normalizePatchPath_eq {name p : Line} (hname : dropSide name = p)
    (hspace : ∀ c ∈ name, jsSpace c = false) (hnull : name ≠ devNull) (hp : PlainPath p) :
    normalizePatchPath name =
      if win32Absolute p then .error ⟨"UNSAFE_PATCH_PATH", name⟩ else .ok (some p) := by
  have hquote : startsWith "\"".toList p = false := by
    rw [Bool.eq_false_iff]
    intro hstart
    obtain ⟨rest, rfl⟩ := startsWith_iff.mp hstart
    exact (hp.chars _ mem_cons_self).2.1 rfl
  have hnul : p.contains '\x00' = false := by
    rw [Bool.eq_false_iff, ne_eq, contains_iff_mem]
    intro hmem
    exact absurd (hp.chars _ hmem).2.2.2.1 (by decide)
  have hclean : p.any jsSpace = false := by
    rw [any_eq_false]
    intro c hc
    rw [(hp.chars c hc).1]
    exact Bool.false_ne_true
  have hslashes : p.map (fun c => if c = '\\' then '/' else c) = p := by
    have hid : ∀ c ∈ p, (if c = '\\' then '/' else c) = id c := fun c hc =>
      if_neg (hp.chars c hc).2.2.1
    rw [map_congr_left hid, map_id]
  have hsafe : unsafeName p = win32Absolute p := by
    unfold unsafeName
    simp only [hp.ne_nil, hquote, hnul, hclean, hp.head, decide_false, Bool.or_false, Bool.false_or]
  have hdot : startsWith "./".toList p = false := by
    rw [Bool.eq_false_iff]
    intro hstart
    obtain ⟨rest, heq⟩ := startsWith_iff.mp hstart
    exact (hp.start ['.'] rest (.inl rfl)).1 heq
  have hup : startsWith "../".toList p = false := by
    rw [Bool.eq_false_iff]
    intro hstart
    obtain ⟨rest, heq⟩ := startsWith_iff.mp hstart
    exact (hp.start ['.', '.'] rest (.inr rfl)).1 heq
  have hparent : p ≠ "..".toList := (hp.start ['.', '.'] [] (.inr rfl)).2
  unfold normalizePatchPath
  rw [trim_plain hspace, if_neg hnull]
  dsimp only
  rw [hname, hsafe, hslashes, posixNormalize_plain hp, hdot]
  simp only [Bool.false_eq_true, if_false, hp.ne_nil, hparent, hup, or_self]

theorem dropSide_or (p : Line) : dropSide p = p ∨ ∃ c rest, p = c :: '/' :: rest ∧
    c ≠ '/' ∧ dropSide p = rest := by
  unfold dropSide
  split
  · rename_i hside
    rw [Bool.or_eq_true] at hside
    right
    rcases hside with ha | hb
    · obtain ⟨rest, rfl⟩ := startsWith_iff.mp ha
      exact ⟨'a', rest, rfl, by decide, rfl⟩
    · obtain ⟨rest, rfl⟩ := startsWith_iff.mp hb
      exact ⟨'b', rest, rfl, by decide, rfl⟩
  · exact .inl rfl

theorem PlainPath.dropSide (hp : PlainPath p) : PlainPath (dropSide p) := by
  rcases dropSide_or p with hsame | ⟨c, rest, rfl, hc, hrest⟩
  · rw [hsame]
    exact hp
  · rw [hrest]
    obtain ⟨part, parts, hparts, hslash⟩ := segments_cons '/' rest
    have hsegments : segments (c :: '/' :: rest) = [c] :: segments rest := by
      rw [segments, hslash, hparts]
      exact if_neg hc
    refine ⟨fun d hd => hp.chars d ?_, fun q hq => hp.parts q ?_⟩
    · exact mem_cons_of_mem c (mem_cons_of_mem '/' hd)
    · rw [hsegments]
      exact mem_cons_of_mem _ hq

theorem dropSide_of_win32Absolute (hp : PlainPath p) (h : win32Absolute p = true) :
    dropSide p = p := by
  rcases dropSide_or p with hsame | ⟨c, rest, rfl, hc, -⟩
  · exact hsame
  · have hback : c ≠ '\\' := (hp.chars c mem_cons_self).2.2.1
    simp [win32Absolute, hc, hback] at h

theorem PlainPath.spaceless (hp : PlainPath p) : ∀ c ∈ p, jsSpace c = false :=
  fun c hc => (hp.chars c hc).1

theorem PlainPath.ne_devNull (hp : PlainPath p) : p ≠ devNull := by
  rintro rfl
  exact hp.head rfl

theorem normalizePatchPath_plain (hp : PlainPath p) :
    normalizePatchPath p =
      if win32Absolute (dropSide p) then .error ⟨"UNSAFE_PATCH_PATH", p⟩
      else .ok (some (dropSide p)) :=
  normalizePatchPath_eq rfl hp.spaceless hp.ne_devNull hp.dropSide

/-- A name behind three signs. -/
def IsSide (name p : Line) : Prop := name = "a/".toList ++ p ∨ name = "b/".toList ++ p

theorem IsSide.spaceless {name p : Line} (h : IsSide name p) (hp : PlainPath p) :
    ∀ c ∈ name, jsSpace c = false := by
  have hsides : ∀ c ∈ "a/".toList ++ "b/".toList, jsSpace c = false := by simp; decide
  intro c hc
  rcases h with rfl | rfl
  · rw [mem_append] at hc
    exact hc.elim (fun hc => hsides c (mem_append_left _ hc)) (hp.spaceless c)
  · rw [mem_append] at hc
    exact hc.elim (fun hc => hsides c (mem_append_right _ hc)) (hp.spaceless c)

theorem normalizePatchPath_side {name p : Line} (h : IsSide name p) (hp : PlainPath p) :
    normalizePatchPath name =
      if win32Absolute p then .error ⟨"UNSAFE_PATCH_PATH", name⟩ else .ok (some p) := by
  refine normalizePatchPath_eq ?_ (h.spaceless hp) ?_ hp
  · rcases h with rfl | rfl <;> rfl
  · intro hnull
    rcases h with rfl | rfl <;> exact absurd (cons.inj hnull).1 (by decide)

end Ds4Studio.Evolution.PatchInspection
