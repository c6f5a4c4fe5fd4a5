import Ds4Studio.Evolution.PatchNames
import Ds4Studio.Evolution.PatchNormal
import Ds4Studio.Json.Canonical
import Mathlib.Data.List.ReduceOption

/-!
What the inspection of a patch reports. It reads line by line and does not know where it is in a
hunk. On a diff it reports the files and the counts just if no line of a hunk looks like a name, no
piece of a line like a binary patch or a link, and no directory of a path like the side of a name.
-/

namespace Ds4Studio.Evolution.PatchInspection

open List UnifiedDiff

/-! ### Lines -/

/-- The pattern for the first line of a section. -/
def matchGitLine (l : Line) : Option (Line × Line) := do
  let rest ← strip "diff --git a/".toList l
  let old := rest.takeWhile fun c => !jsSpace c
  let new ← strip " b/".toList (rest.dropWhile fun c => !jsSpace c)
  if old ≠ [] ∧ new ≠ [] ∧ new.all fun c => !jsSpace c then some (old, new) else none

structure Inspection where
  touched : List (Option Line) := []
  diffPairs : List Line := []
  addedLines : ℕ := 0
  deletedLines : ℕ := 0
  hunks : ℕ := 0
deriving DecidableEq

/-- `Set.prototype.add` -/
def add {α : Type} [DecidableEq α] (x : α) (set : List α) : List α :=
  if x ∈ set then set else set ++ [x]

/-- A line with the sign of a kind that is not three of these signs. -/
def counted (k : Kind) (l : Line) : Bool :=
  startsWith [k.mark] l && !startsWith [k.mark, k.mark, k.mark] l

/-- A line that names a file behind three signs. -/
def isNameLine (l : Line) : Bool := startsWith "--- ".toList l || startsWith "+++ ".toList l

def nameText (l : Line) : Line := (l.drop 4).takeWhile fun c => c ≠ '\t'

/-- The body of the loop of `inspectUnifiedPatch`. -/
def inspectLine (s : Inspection) (line : Line) : Except CandidateError Inspection :=
  if startsWith "diff --git ".toList line then
    match matchGitLine line with
    | none => .error ⟨"UNSAFE_PATCH_PATH", line⟩
    | some (old, new) =>
        let pair := old ++ newline :: new
        if s.diffPairs.contains pair then .error ⟨"DUPLICATE_PATCH_SECTION", new⟩
        else do
          let source ← normalizePatchPath old
          let target ← normalizePatchPath new
          return { s with
            diffPairs := add pair s.diffPairs, touched := add target (add source s.touched) }
  else if isNameLine line then do
    match ← normalizePatchPath (nameText line) with
    | none => return s
    | some candidate => return { s with touched := add (some candidate) s.touched }
  else if startsWith "@@".toList line then return { s with hunks := s.hunks + 1 }
  else return { s with
    addedLines := s.addedLines + if counted .added line then 1 else 0
    deletedLines := s.deletedLines + if counted .removed line then 1 else 0 }

/-! ### The whole text -/

/-- A pattern matches where the text or one of its lines begins. -/
def matchesAtLine (p : Line → Bool) : Bool → Line → Bool
  | start, [] => start && p []
  | start, c :: rest =>
      (start && p (c :: rest)) || matchesAtLine p (PatchNormal.isTerminator c) rest

def mentionsBinary (text : Line) : Bool :=
  matchesAtLine (fun l => startsWith "GIT binary patch".toList l ||
    startsWith "Binary files ".toList l) true text

/-- A mode at the end of its line. -/
def isLinkMode (l : Line) : Bool :=
  ["new file mode 120000", "old mode 120000", "new mode 120000"].any fun start =>
    (strip start.toList l).any fun rest => rest.head?.all PatchNormal.isTerminator

def mentionsSymlink (text : Line) : Bool := matchesAtLine isLinkMode true text

def byteLength (text : Line) : ℕ := (text.map Char.utf8Size).sum

def maxPatchBytes : ℕ := 2000000

/-- The order of `sort`, by code units. -/
def unitsLe (a b : Line) : Bool :=
  decide ((a.flatMap fun c => Json.codeUnits c.toNat) ≤ b.flatMap fun c => Json.codeUnits c.toNat)

structure Metadata (η : Type) where
  files : List Line
  filesChanged : ℕ
  addedLines : ℕ
  deletedLines : ℕ
  bytes : ℕ
  patchHash : η

variable {η : Type}

/-- `inspectUnifiedPatch`; `maxBytes` is the option. -/
def inspectUnifiedPatch (sha256 : Line → η) (maxBytes : Option ℕ) (patchText : Line) :
    Except CandidateError (Metadata η) :=
  if trim patchText = [] then .error ⟨"EMPTY_PATCH", "candidate patch is empty".toList⟩
  else
    let bytes := byteLength patchText
    if maxBytes.getD maxPatchBytes < bytes then
      .error ⟨"PATCH_TOO_LARGE",
        "patch is ".toList ++ (Nat.toDigits 10 bytes ++ " bytes".toList)⟩
    else if patchText.contains '\x00' then
      .error ⟨"UNSAFE_PATCH_CONTENT", "patch contains NUL byte".toList⟩
    else if mentionsBinary patchText then
      .error ⟨"BINARY_CHANGE_FORBIDDEN", "binary patch detected".toList⟩
    else if mentionsSymlink patchText then
      .error ⟨"SYMLINK_CHANGE_FORBIDDEN", "symlink patch detected".toList⟩
    else do
      let s ← (patchText.splitOn newline).foldlM inspectLine {}
      let touched := s.touched.reduceOption
      if touched = [] ∨ s.hunks = 0 then
        .error ⟨"INVALID_PATCH", "patch contains no file hunk".toList⟩
      else if s.diffPairs.length ≠ touched.length then
        .error ⟨"INVALID_PATCH",
          "patch must contain exactly one diff section per touched file".toList⟩
      else return {
        files := touched.mergeSort unitsLe
        filesChanged := touched.length
        addedLines := s.addedLines
        deletedLines := s.deletedLines
        bytes := bytes
        patchHash := sha256 patchText }

/-! ### What is asked and when it holds -/

/-- A well-formed diff that modifies, creates or deletes files. -/
structure InPlace (d : Diff) : Prop where
  wellFormed : WellFormed d
  change : ∀ s ∈ d, ∀ modes similarity source,
    s.change ≠ .renamed modes similarity source ∧ s.change ≠ .copied modes similarity source
  paths : ∀ s ∈ d, PlainPath s.path

def bodies (d : Diff) : List BodyLine := d.flatMap fun s => s.hunks.flatMap Hunk.body

/-- The inspection accepts a diff and reports its files and its counts. -/
def Reported (sha256 : Line → η) (maxBytes : Option ℕ) (d : Diff) : Prop :=
  ∃ m, inspectUnifiedPatch sha256 maxBytes (textOf d) = .ok m ∧
    m.files.Perm (d.map Section.path) ∧
    m.addedLines = (bodies d).countP (fun l => l.kind = .added) ∧
    m.deletedLines = (bodies d).countP fun l => l.kind = .removed

/-- No line of a hunk begins with three signs. -/
def Quiet (d : Diff) : Prop :=
  ∀ l ∈ bodies d, (l.kind = .added → startsWith "++".toList l.text = false) ∧
    (l.kind = .removed → startsWith "--".toList l.text = false)

/-- What the inspection needs of a diff. The first line of a section loses a directory `a` or `b` of
its path, since it takes it for a side. -/
structure Legible (d : Diff) : Prop where
  hunk : ∃ s ∈ d, s.hunks ≠ []
  nul : '\x00' ∉ textOf d
  binary : mentionsBinary (textOf d) = false
  symlink : mentionsSymlink (textOf d) = false
  quiet : Quiet d
  relative : ∀ s ∈ d, win32Absolute s.path = false
  first : ∀ s ∈ d, dropSide s.path ∈ d.map Section.path
  reached : ∀ s ∈ d, s.hunks ≠ [] ∨ ∃ u ∈ d, dropSide u.path = s.path

/-- The names of files on a line. -/
def nameTexts (l : Line) : List Line :=
  if startsWith "diff --git ".toList l then
    match matchGitLine l with
    | none => []
    | some (old, new) => [old, new]
  else if isNameLine l then [nameText l]
  else []

/-- A line names a file. -/
def Names (l : Line) (path : Line) : Prop :=
  ∃ name ∈ nameTexts l, normalizePatchPath name = .ok (some path)

/-! ### What lines add -/

/-- The pair of the first line of a section. -/
def pairOf (l : Line) : Option Line :=
  if startsWith "diff --git ".toList l then
    (matchGitLine l).map fun names => names.1 ++ newline :: names.2
  else none

/-- A line is read without an error, pairs apart. -/
def Readable (l : Line) : Prop :=
  (startsWith "diff --git ".toList l = true → (matchGitLine l).isSome = true) ∧
    ∀ name ∈ nameTexts l, ∃ path, normalizePatchPath name = .ok path

/-- What the loop has added behind some lines. -/
structure Adds (s : Inspection) (lines : List Line) (s' : Inspection) : Prop where
  readable : ∀ l ∈ lines, Readable l
  touched : ∀ path, some path ∈ s'.touched ↔ some path ∈ s.touched ∨ ∃ l ∈ lines, Names l path
  touched_nodup : s.touched.Nodup → s'.touched.Nodup
  diffPairs : s'.diffPairs = s.diffPairs ++ lines.filterMap pairOf
  addedLines : s'.addedLines = s.addedLines + lines.countP (counted .added)
  deletedLines : s'.deletedLines = s.deletedLines + lines.countP (counted .removed)
  hunks : s'.hunks = s.hunks + lines.countP (startsWith "@@".toList)

theorem mem_add {α : Type} [DecidableEq α] {x y : α} {set : List α} :
    y ∈ add x set ↔ y ∈ set ∨ y = x := by
  unfold add
  split
  · rename_i hmem
    constructor
    · exact .inl
    · rintro (hy | rfl)
      · exact hy
      · exact hmem
  · rw [mem_append, mem_singleton]

theorem nodup_add {α : Type} [DecidableEq α] {x : α} {set : List α} (h : set.Nodup) :
    (add x set).Nodup := by
  unfold add
  split
  · exact h
  · rename_i hmem
    refine h.append (nodup_singleton x) ?_
    rw [disjoint_singleton]
    exact hmem

variable {p q : Line}

theorem startsWith_of_startsWith {l : Line} (hp : startsWith p l = true) (h : apart q p = true) :
    startsWith q l = false := by
  obtain ⟨rest, rfl⟩ := startsWith_iff.mp hp
  exact startsWith_of_apart h rest

variable {l : Line} {k : Kind}

/-- The lines that the loop reads in front of the counts have no sign that it counts. -/
theorem not_counted (hk : k ≠ .context)
    (h : startsWith "diff --git ".toList l = true ∨ isNameLine l = true ∨
      startsWith "@@".toList l = true) : counted k l = false := by
  have hsign : ∀ start : Line, startsWith start l = true → apart [k.mark] start = true →
      counted k l = false := by
    intro start hstart hapart
    unfold counted
    rw [startsWith_of_startsWith hstart hapart, Bool.false_and]
  have hthree : ∀ start : Line, startsWith start l = true →
      startsWith [k.mark, k.mark, k.mark] start = true → counted k l = false := by
    intro start hstart hmarks
    obtain ⟨rest, rfl⟩ := startsWith_iff.mp hstart
    obtain ⟨more, hmore⟩ := startsWith_iff.mp hmarks
    unfold counted
    rw [hmore, append_assoc, startsWith_append, Bool.not_true, Bool.and_false]
  unfold isNameLine at h
  rw [Bool.or_eq_true] at h
  cases k with
  | context => exact absurd rfl hk
  | removed =>
    rcases h with h | (h | h) | h
    · exact hsign _ h (by decide)
    · exact hthree _ h (by decide)
    · exact hsign _ h (by decide)
    · exact hsign _ h (by decide)
  | added =>
    rcases h with h | (h | h) | h
    · exact hsign _ h (by decide)
    · exact hsign _ h (by decide)
    · exact hthree _ h (by decide)
    · exact hsign _ h (by decide)

theorem isNameLine_apart (h : isNameLine l = true) {start : Line}
    (h₁ : apart start "--- ".toList = true) (h₂ : apart start "+++ ".toList = true) :
    startsWith start l = false := by
  unfold isNameLine at h
  rw [Bool.or_eq_true] at h
  exact h.elim (fun h => startsWith_of_startsWith h h₁) fun h => startsWith_of_startsWith h h₂

theorem countP_one (p : Line → Bool) (l : Line) : [l].countP p = if p l then 1 else 0 := by
  rw [countP_cons, countP_nil, Nat.zero_add]

variable {s : Inspection}

theorem adds_gitLine {l old new : Line} {source target : Option Line}
    (hgit : startsWith "diff --git ".toList l = true) (hmatch : matchGitLine l = some (old, new))
    (hfresh : old ++ newline :: new ∉ s.diffPairs) (hsource : normalizePatchPath old = .ok source)
    (htarget : normalizePatchPath new = .ok target) :
    Adds s [l] { s with
      diffPairs := add (old ++ newline :: new) s.diffPairs
      touched := add target (add source s.touched) } := by
  have htexts : nameTexts l = [old, new] := by
    unfold nameTexts
    rw [if_pos hgit, hmatch]
  have hpair : pairOf l = some (old ++ newline :: new) := by
    unfold pairOf
    rw [if_pos hgit, hmatch]
    rfl
  have hadded := not_counted (k := .added) (by decide) (.inl hgit)
  have hremoved := not_counted (k := .removed) (by decide) (.inl hgit)
  have hhunk : startsWith "@@".toList l = false := startsWith_of_startsWith hgit (by decide)
  have hnames : ∀ path, Names l path ↔ some path = source ∨ some path = target := by
    intro path
    unfold Names
    rw [htexts]
    simp only [mem_cons, not_mem_nil, or_false, exists_eq_or_imp, exists_eq_left,
      hsource, htarget, Except.ok.injEq]
    rw [eq_comm, @eq_comm _ target]
  refine ⟨?_, fun path => ?_, fun hnodup => nodup_add (nodup_add hnodup), ?_, ?_, ?_, ?_⟩
  · intro m hm
    rw [mem_singleton] at hm
    subst hm
    refine ⟨fun _ => by rw [hmatch]; rfl, fun name hname => ?_⟩
    rw [htexts, mem_cons, mem_singleton] at hname
    rcases hname with rfl | rfl
    · exact ⟨source, hsource⟩
    · exact ⟨target, htarget⟩
  · dsimp only
    rw [mem_add, mem_add, or_assoc, ← hnames]
    simp only [mem_singleton, exists_eq_left]
  · change add _ _ = _
    unfold add
    rw [if_neg hfresh, filterMap_cons, hpair]
    rfl
  · rw [countP_one, hadded]
    rfl
  · rw [countP_one, hremoved]
    rfl
  · rw [countP_one, hhunk]
    rfl

theorem pairOf_of_not (h : startsWith "diff --git ".toList l = false) : pairOf l = none := by
  unfold pairOf
  rw [h, if_neg Bool.false_ne_true]

theorem adds_nameLine {candidate : Option Line} (hname : isNameLine l = true)
    (hcandidate : normalizePatchPath (nameText l) = .ok candidate) :
    Adds s [l] (match candidate with
      | none => s
      | some path => { s with touched := add (some path) s.touched }) := by
  have hgit : startsWith "diff --git ".toList l = false :=
    isNameLine_apart hname (by decide) (by decide)
  have htexts : nameTexts l = [nameText l] := by
    unfold nameTexts
    rw [hgit, if_neg Bool.false_ne_true, if_pos hname]
  have hadded := not_counted (k := .added) (by decide) (.inr (.inl hname))
  have hremoved := not_counted (k := .removed) (by decide) (.inr (.inl hname))
  have hhunk : startsWith "@@".toList l = false := isNameLine_apart hname (by decide) (by decide)
  have hreadable : ∀ m ∈ [l], Readable m := by
    intro m hm
    rw [mem_singleton] at hm
    subst hm
    refine ⟨fun h => absurd (hgit.symm.trans h) Bool.false_ne_true, fun name hmem => ?_⟩
    rw [htexts, mem_singleton] at hmem
    rw [hmem]
    exact ⟨candidate, hcandidate⟩
  have hnames : ∀ path, (∃ m ∈ [l], Names m path) ↔ candidate = some path := by
    intro path
    unfold Names
    simp only [mem_singleton, exists_eq_left, htexts, hcandidate, Except.ok.injEq]
  have hpairs : s.diffPairs = s.diffPairs ++ [l].filterMap pairOf := by
    rw [filterMap_cons, pairOf_of_not hgit]
    exact (append_nil _).symm
  have hcounts : ∀ p : Line → Bool, p l = false → ∀ n : ℕ, n = n + [l].countP p := by
    intro p hp n
    rw [countP_one, hp]
    rfl
  cases candidate with
  | none =>
    refine ⟨hreadable, fun path => ?_, id, hpairs, hcounts _ hadded _, hcounts _ hremoved _,
      hcounts _ hhunk _⟩
    rw [hnames]
    simp
  | some name =>
    refine ⟨hreadable, fun path => ?_, nodup_add, hpairs, hcounts _ hadded _,
      hcounts _ hremoved _, hcounts _ hhunk _⟩
    rw [hnames]
    rw [mem_add, @eq_comm _ (some path)]

theorem adds_countedLine (hgit : startsWith "diff --git ".toList l = false)
    (hname : isNameLine l = false) :
    Adds s [l] (if startsWith "@@".toList l then { s with hunks := s.hunks + 1 } else { s with
      addedLines := s.addedLines + if counted .added l then 1 else 0
      deletedLines := s.deletedLines + if counted .removed l then 1 else 0 }) := by
  have htexts : nameTexts l = [] := by
    unfold nameTexts
    rw [hgit, hname]
    rfl
  have hreadable : ∀ m ∈ [l], Readable m := by
    intro m hm
    rw [mem_singleton] at hm
    subst hm
    refine ⟨fun h => absurd (hgit.symm.trans h) Bool.false_ne_true, fun name hmem => ?_⟩
    rw [htexts] at hmem
    cases hmem
  have hnames : ∀ path, ¬ ∃ m ∈ [l], Names m path := by
    unfold Names
    simp [htexts]
  have hpairs : s.diffPairs = s.diffPairs ++ [l].filterMap pairOf := by
    rw [filterMap_cons, pairOf_of_not hgit]
    exact (append_nil _).symm
  split
  · rename_i hhunk
    have hadded := not_counted (k := .added) (by decide) (.inr (.inr hhunk))
    have hremoved := not_counted (k := .removed) (by decide) (.inr (.inr hhunk))
    refine ⟨hreadable, fun path => ?_, id, hpairs, ?_, ?_, ?_⟩
    · simp only [hnames, or_false]
    · rw [countP_one, hadded]
      rfl
    · rw [countP_one, hremoved]
      rfl
    · rw [countP_one, if_pos hhunk]
  · rename_i hhunk
    refine ⟨hreadable, fun path => ?_, id, hpairs, ?_, ?_, ?_⟩
    · simp only [hnames, or_false]
    · rw [countP_one]
    · rw [countP_one]
    · rw [countP_one, if_neg hhunk]
      rfl

theorem bind_eq_ok {α β : Type} {x : Except CandidateError α} {f : α → Except CandidateError β}
    {b : β} : (x >>= f) = .ok b ↔ ∃ a, x = .ok a ∧ f a = .ok b := by
  cases x with
  | error e =>
    constructor
    · intro h
      cases h
    · rintro ⟨_, ha, -⟩
      cases ha
  | ok a =>
    constructor
    · intro h
      exact ⟨a, rfl, h⟩
    · rintro ⟨_, ha, hb⟩
      cases ha
      exact hb

theorem adds_of_inspectLine {s s' : Inspection} (h : inspectLine s l = .ok s') : Adds s [l] s' := by
  unfold inspectLine at h
  split at h
  · rename_i hgit
    split at h
    · cases h
    · rename_i old new hmatch
      dsimp only at h
      split at h
      · cases h
      · rename_i hfresh
        obtain ⟨source, hsource, h⟩ := bind_eq_ok.mp h
        obtain ⟨target, htarget, h⟩ := bind_eq_ok.mp h
        cases h
        exact adds_gitLine hgit hmatch (mt contains_iff_mem.mpr hfresh) hsource htarget
  · rename_i hgit
    rw [Bool.not_eq_true] at hgit
    split at h
    · rename_i hname
      obtain ⟨candidate, hcandidate, h⟩ := bind_eq_ok.mp h
      have hadds := adds_nameLine (s := s) hname hcandidate
      cases candidate <;> cases h <;> exact hadds
    · rename_i hname
      rw [Bool.not_eq_true] at hname
      have hadds := adds_countedLine (s := s) hgit hname
      split at h
      · rename_i hhunk
        cases h
        rw [if_pos hhunk] at hadds
        exact hadds
      · rename_i hhunk
        cases h
        rw [if_neg hhunk] at hadds
        exact hadds

theorem inspectLine_of_readable (hreadable : Readable l)
    (hfresh : ∀ pair, pairOf l = some pair → pair ∉ s.diffPairs) :
    ∃ s', inspectLine s l = .ok s' := by
  obtain ⟨hsome, hnames⟩ := hreadable
  unfold inspectLine
  split
  · rename_i hgit
    obtain ⟨⟨old, new⟩, hmatch⟩ := Option.isSome_iff_exists.mp (hsome hgit)
    unfold nameTexts at hnames
    rw [if_pos hgit, hmatch] at hnames
    obtain ⟨source, hsource⟩ := hnames old mem_cons_self
    obtain ⟨target, htarget⟩ := hnames new (mem_cons_of_mem old mem_cons_self)
    have hpair := hfresh (old ++ newline :: new) (by
      unfold pairOf
      rw [if_pos hgit, hmatch]
      rfl)
    rw [hmatch]
    dsimp only
    rw [if_neg (mt contains_iff_mem.mp hpair), hsource, htarget]
    exact ⟨_, rfl⟩
  · rename_i hgit
    split
    · rename_i hname
      unfold nameTexts at hnames
      rw [if_neg hgit, if_pos hname] at hnames
      obtain ⟨candidate, hcandidate⟩ := hnames _ mem_cons_self
      rw [hcandidate]
      cases candidate <;> exact ⟨_, rfl⟩
    · split <;> exact ⟨_, rfl⟩

theorem Adds.trans {s₁ s₂ s₃ : Inspection} {front back : List Line} (h : Adds s₁ front s₂)
    (h' : Adds s₂ back s₃) : Adds s₁ (front ++ back) s₃ where
  readable := by
    intro l hl
    rw [mem_append] at hl
    exact hl.elim (h.readable l) (h'.readable l)
  touched := by
    intro path
    rw [h'.touched, h.touched]
    simp only [mem_append, or_and_right, exists_or, or_assoc]
  touched_nodup := fun hnodup => h'.touched_nodup (h.touched_nodup hnodup)
  diffPairs := by rw [h'.diffPairs, h.diffPairs, filterMap_append, append_assoc]
  addedLines := by rw [h'.addedLines, h.addedLines, countP_append, Nat.add_assoc]
  deletedLines := by rw [h'.deletedLines, h.deletedLines, countP_append, Nat.add_assoc]
  hunks := by rw [h'.hunks, h.hunks, countP_append, Nat.add_assoc]

theorem adds_nil (s : Inspection) : Adds s [] s where
  readable := fun _ h => nomatch h
  touched := by simp
  touched_nodup := id
  diffPairs := (append_nil _).symm
  addedLines := rfl
  deletedLines := rfl
  hunks := rfl

theorem adds_of_run {lines : List Line} : ∀ {s s' : Inspection},
    lines.foldlM inspectLine s = .ok s' → Adds s lines s' := by
  induction lines with
  | nil =>
    intro s s' h
    cases h
    exact adds_nil s
  | cons l lines ih =>
    intro s s' h
    obtain ⟨mid, hmid, hrest⟩ := bind_eq_ok.mp h
    exact (adds_of_inspectLine hmid).trans (ih hrest)

theorem run_of_readable {lines : List Line} : ∀ {s : Inspection}, (∀ l ∈ lines, Readable l) →
    (s.diffPairs ++ lines.filterMap pairOf).Nodup → ∃ s', lines.foldlM inspectLine s = .ok s' := by
  induction lines with
  | nil => exact fun _ _ => ⟨_, rfl⟩
  | cons l lines ih =>
    intro s hreadable hnodup
    have hfresh : ∀ pair, pairOf l = some pair → pair ∉ s.diffPairs := by
      intro pair hpair hmem
      rw [filterMap_cons, hpair, nodup_append] at hnodup
      exact hnodup.2.2 pair hmem pair mem_cons_self rfl
    obtain ⟨mid, hmid⟩ := inspectLine_of_readable (hreadable l mem_cons_self) hfresh
    have hpairs := (adds_of_inspectLine hmid).diffPairs
    have hnodup' : (mid.diffPairs ++ lines.filterMap pairOf).Nodup := by
      rw [hpairs, append_assoc, ← filterMap_append]
      exact hnodup
    obtain ⟨s', hs'⟩ := ih (fun m hm => hreadable m (mem_cons_of_mem l hm)) hnodup'
    refine ⟨s', ?_⟩
    exact bind_eq_ok.mpr ⟨mid, hmid, hs'⟩

/-! ### An accepted text -/

variable {sha256 : Line → η} {maxBytes : Option ℕ} {m : Metadata η}

def lines (text : Line) : List Line := text.splitOn newline

variable {text : Line}

theorem inspectUnifiedPatch_eq_ok :
    inspectUnifiedPatch sha256 maxBytes text = .ok m ↔
      trim text ≠ [] ∧ byteLength text ≤ maxBytes.getD maxPatchBytes ∧ '\x00' ∉ text ∧
        mentionsBinary text = false ∧ mentionsSymlink text = false ∧
        ∃ s, (lines text).foldlM inspectLine {} = .ok s ∧ s.touched.reduceOption ≠ [] ∧
          s.hunks ≠ 0 ∧ s.diffPairs.length = s.touched.reduceOption.length ∧
          m = ⟨s.touched.reduceOption.mergeSort unitsLe, s.touched.reduceOption.length,
            s.addedLines, s.deletedLines, byteLength text, sha256 text⟩ := by
  unfold inspectUnifiedPatch
  constructor
  · intro h
    split at h
    · cases h
    rename_i htrim
    dsimp only at h
    split at h
    · cases h
    split at h
    · cases h
    rename_i hnul
    split at h
    · cases h
    rename_i hbinary
    split at h
    · cases h
    rename_i hsymlink
    obtain ⟨s, hs, h⟩ := bind_eq_ok.mp h
    split at h
    · cases h
    rename_i hempty
    split at h
    · cases h
    rename_i hlength
    cases h
    rw [not_or] at hempty
    rw [Bool.not_eq_true] at hbinary hsymlink
    rw [contains_iff_mem] at hnul
    exact ⟨htrim, by omega, hnul, hbinary, hsymlink, s, hs, hempty.1, hempty.2,
      not_not.mp hlength, rfl⟩
  · rintro ⟨htrim, hbytes, hnul, hbinary, hsymlink, s, hs, htouched, hhunks, hlength, rfl⟩
    rw [if_neg htrim]
    rw [if_neg (by omega), if_neg (by rw [contains_iff_mem]; exact hnul), hbinary, hsymlink]
    refine bind_eq_ok.mpr ⟨s, hs, ?_⟩
    rw [if_neg (not_or.mpr ⟨htouched, hhunks⟩), if_neg (not_not.mpr hlength)]
    rfl

theorem nodup_touched (hs : (lines text).foldlM inspectLine {} = .ok s) :
    s.touched.reduceOption.Nodup := by
  refine List.Nodup.filterMap ?_ ((adds_of_run hs).touched_nodup nodup_nil)
  intro a b path ha hb
  exact (Option.mem_def.mp ha).trans (Option.mem_def.mp hb).symm

theorem mem_touched (hs : (lines text).foldlM inspectLine {} = .ok s) (path : Line) :
    path ∈ s.touched.reduceOption ↔ ∃ l ∈ lines text, Names l path := by
  rw [reduceOption_mem_iff, (adds_of_run hs).touched]
  simp

section

variable (h : inspectUnifiedPatch sha256 maxBytes text = .ok m)

include h

theorem mem_files (path : Line) : path ∈ m.files ↔ ∃ l ∈ lines text, Names l path := by
  obtain ⟨-, -, -, -, -, s, hs, -, -, -, rfl⟩ := inspectUnifiedPatch_eq_ok.mp h
  rw [← mem_touched hs, mem_mergeSort]

theorem readable_of_ok : ∀ l ∈ lines text, Readable l := by
  obtain ⟨-, -, -, -, -, s, hs, -⟩ := inspectUnifiedPatch_eq_ok.mp h
  exact (adds_of_run hs).readable

end

/-! ### The lines of a diff -/

variable {d : Diff}

theorem lines_textOf (hd : ∀ s ∈ d, s.Printable) :
    lines (textOf d) = linesOf d ++ [[]] := splitOn_terminated (oneLine_linesOf hd)

theorem mem_linesOf : l ∈ linesOf d ↔ ∃ s ∈ d,
    l = gitLine s.source s.path ∨ (∃ f ∈ s.fields, l = fieldLine f) ∨
      (∃ h ∈ s.hunks, l = h.header) ∨ (∃ h ∈ s.hunks, ∃ b ∈ h.body, l = b.kind.mark :: b.text) ∨
        ∃ h ∈ s.hunks, ∃ b ∈ h.body, b.bare = true ∧ l = marker := by
  have hbody : ∀ b : BodyLine, l ∈ b.lines ↔ l = b.kind.mark :: b.text ∨
      (b.bare = true ∧ l = marker) := by
    intro b
    unfold BodyLine.lines
    cases b.bare <;> simp
  unfold linesOf Section.lines Section.extended hunkLines Hunk.lines bodyLines
  simp only [mem_flatMap, mem_cons, mem_append, mem_map, hbody,
    @eq_comm _ (fieldLine _), and_or_left, exists_or]

theorem takeWhile_spaceless (hp : ∀ c ∈ p, jsSpace c = false) (rest : Line) :
    (p ++ ' ' :: rest).takeWhile (fun c => !jsSpace c) = p ∧
      (p ++ ' ' :: rest).dropWhile (fun c => !jsSpace c) = ' ' :: rest := by
  have hall : ∀ c ∈ p, (!jsSpace c) = true := by
    intro c hc
    rw [hp c hc]
    rfl
  rw [takeWhile_append_of_pos hall, dropWhile_append_of_pos hall]
  exact ⟨append_nil p, rfl⟩

theorem matchGitLine_gitLine (hp : PlainPath p) (hq : PlainPath q) :
    matchGitLine (gitLine p q) = some (p, q) := by
  obtain ⟨htake, hdrop⟩ := takeWhile_spaceless hp.spaceless ("b/".toList ++ q)
  have hrest : p ++ (" b/".toList ++ q) = p ++ ' ' :: ("b/".toList ++ q) := rfl
  have hside : strip " b/".toList (' ' :: ("b/".toList ++ q)) = some q :=
    strip_append " b/".toList q
  have hall : (q.all fun c => !jsSpace c) = true := by
    rw [all_eq_true]
    intro c hc
    rw [(hq.chars c hc).1]
    rfl
  unfold matchGitLine gitLine
  rw [strip_append]
  simp only [Option.bind_eq_bind, Option.bind_some]
  rw [hrest, htake, hdrop, hside]
  simp only [Option.bind_some]
  rw [if_pos ⟨hp.ne_nil, hq.ne_nil, hall⟩]

theorem nameTexts_gitLine (hp : PlainPath p) (hq : PlainPath q) :
    nameTexts (gitLine p q) = [p, q] := by
  unfold nameTexts
  rw [if_pos (PatchNormal.startsWith_gitLine p q), matchGitLine_gitLine hp hq]

theorem nameTexts_of_apart {start : Line} (hgit : apart "diff --git ".toList start = true)
    (hold : apart "--- ".toList start = true) (hnew : apart "+++ ".toList start = true)
    (l : Line) : nameTexts (start ++ l) = [] := by
  unfold nameTexts isNameLine
  rw [startsWith_of_apart hgit, startsWith_of_apart hold, startsWith_of_apart hnew]
  rfl

def untilTab (l : Line) : Line := l.takeWhile fun c => c ≠ '\t'

theorem apart_name : ∀ field : Field, field ≠ .oldName → field ≠ .newName →
    apart "--- ".toList field.start = true ∧ apart "+++ ".toList field.start = true := by
  intro field
  cases field <;> decide

theorem nameTexts_fieldLine (f : Field × Line) :
    nameTexts (fieldLine f) =
      if f.1 = .oldName ∨ f.1 = .newName then [untilTab f.2] else [] := by
  obtain ⟨field, text⟩ := f
  by_cases hname : field = .oldName ∨ field = .newName
  · rw [if_pos hname]
    rcases hname with rfl | rfl <;> rfl
  · have hapart := apart_name field (fun h => hname (.inl h)) fun h => hname (.inr h)
    rw [if_neg hname]
    exact nameTexts_of_apart (apart_field field).2 hapart.1 hapart.2 text

theorem nameTexts_header (h : Hunk) : nameTexts h.header = [] := by
  exact nameTexts_of_apart (by decide) (by decide) (by decide) _

/-- A line of a hunk names no file if its text does not begin with two signs of its kind. -/
theorem nameTexts_bodyLine {b : BodyLine}
    (hadded : b.kind = .added → startsWith "++".toList b.text = false)
    (hremoved : b.kind = .removed → startsWith "--".toList b.text = false) :
    nameTexts (b.kind.mark :: b.text) = [] := by
  have hgit := (PatchNormal.startsWith_mark b.kind b.text).2
  have hname : isNameLine (b.kind.mark :: b.text) = false := by
    unfold isNameLine
    rw [Bool.or_eq_false_iff, Bool.eq_false_iff, Bool.eq_false_iff]
    constructor
    · intro hstart
      obtain ⟨rest, heq⟩ := startsWith_iff.mp hstart
      obtain ⟨hmark, htext⟩ := cons.inj heq
      cases hkind : b.kind with
      | removed =>
        have hsigns : startsWith "--".toList b.text = true :=
          startsWith_iff.mpr ⟨' ' :: rest, htext⟩
        rw [hremoved hkind] at hsigns
        exact Bool.false_ne_true hsigns
      | context | added =>
        rw [hkind] at hmark
        exact absurd hmark (by decide)
    · intro hstart
      obtain ⟨rest, heq⟩ := startsWith_iff.mp hstart
      obtain ⟨hmark, htext⟩ := cons.inj heq
      cases hkind : b.kind with
      | added =>
        have hsigns : startsWith "++".toList b.text = true :=
          startsWith_iff.mpr ⟨' ' :: rest, htext⟩
        rw [hadded hkind] at hsigns
        exact Bool.false_ne_true hsigns
      | context | removed =>
        rw [hkind] at hmark
        exact absurd hmark (by decide)
  unfold nameTexts
  rw [hgit, hname]
  rfl

theorem nameTexts_rest : nameTexts marker = [] ∧ nameTexts [] = [] := by decide

/-! ### Counts and pairs of a diff -/

/-- A line of a kind that the inspection counts. -/
def counts (k : Kind) (b : BodyLine) : Bool := b.kind = k && !startsWith [k.mark, k.mark] b.text

theorem counted_bodyLine (k : Kind) (b : BodyLine) :
    counted k (b.kind.mark :: b.text) = counts k b := by
  have hthree : startsWith [k.mark, k.mark, k.mark] (b.kind.mark :: b.text) =
      (decide (b.kind = k) && startsWith [k.mark, k.mark] b.text) := by
    cases k <;> cases b.kind <;> rfl
  unfold counted counts
  rw [PatchNormal.startsWith_kind, hthree]
  cases decide (b.kind = k) <;> rfl

theorem counted_fieldLine (hk : k ≠ .context) (f : Field × Line) :
    counted k (fieldLine f) = false := by
  have happly : ∀ field : Field, isNameLine (field.start ++ f.2) = true ∨
      apart [k.mark] field.start = true := by
    intro field
    cases k with
    | context => exact absurd rfl hk
    | removed | added =>
      cases field with
      | oldName | newName => exact .inl rfl
      | _ => exact .inr (by decide)
  unfold fieldLine
  rcases happly f.1 with hname | hapart
  · exact not_counted hk (.inr (.inl hname))
  · unfold counted
    rw [startsWith_of_apart hapart, Bool.false_and]

theorem startsWith_hunk (h : Hunk) : startsWith "@@".toList h.header = true := by rfl

theorem countP_bodyLines (k : Kind) (body : List BodyLine) :
    (bodyLines body).countP (counted k) = body.countP (counts k) := by
  have hmarker : counted k marker = false := by cases k <;> decide
  induction body with
  | nil => rfl
  | cons b body ih =>
    have hlines : bodyLines (b :: body) = b.lines ++ bodyLines body := flatMap_cons
    have hbare : (if b.bare then [marker] else []).countP (counted k) = 0 := by
      cases b.bare with
      | false => rfl
      | true =>
        rw [if_pos rfl, countP_one, hmarker]
        rfl
    unfold BodyLine.lines at hlines
    rw [hlines, countP_append, countP_cons, hbare, ih, counted_bodyLine,
      countP_cons, Nat.zero_add, Nat.add_comm]

theorem countP_section (hk : k ≠ .context) (s : Section) :
    s.lines.countP (counted k) = (s.hunks.flatMap Hunk.body).countP (counts k) := by
  have hextended : s.extended.countP (counted k) = 0 := by
    rw [countP_eq_zero]
    intro l hl
    obtain ⟨f, -, rfl⟩ := mem_map.mp hl
    rw [counted_fieldLine hk]
    exact Bool.false_ne_true
  have hhunk : ∀ h : Hunk, h.lines.countP (counted k) = h.body.countP (counts k) := by
    intro h
    unfold Hunk.lines
    rw [countP_cons, not_counted hk (.inr (.inr (startsWith_hunk h))), countP_bodyLines]
    rfl
  unfold Section.lines hunkLines
  rw [countP_cons, not_counted hk (.inl (PatchNormal.startsWith_gitLine _ _)),
    countP_append, hextended, countP_flatMap, countP_flatMap]
  simp only [Function.comp_def, hhunk, Nat.zero_add, Bool.false_eq_true, if_false, Nat.add_zero]

theorem countP_linesOf (hk : k ≠ .context) (d : Diff) :
    (linesOf d ++ [[]]).countP (counted k) = (bodies d).countP (counts k) := by
  have hempty : counted k [] = false := rfl
  unfold linesOf bodies
  rw [countP_append, countP_one, hempty, countP_flatMap, countP_flatMap]
  simp only [Function.comp_def, countP_section hk, Bool.false_eq_true, if_false, Nat.add_zero]

/-- The count is that of the kind just if no text begins with two signs. -/
theorem countP_counts_iff (k : Kind) (body : List BodyLine) :
    body.countP (counts k) = body.countP (fun b => b.kind = k) ↔
      ∀ b ∈ body, b.kind = k → startsWith [k.mark, k.mark] b.text = false := by
  have hle : ∀ body : List BodyLine,
      body.countP (counts k) ≤ body.countP fun b => b.kind = k := by
    intro body
    refine countP_mono_left fun b _ hb => ?_
    unfold counts at hb
    rw [Bool.and_eq_true] at hb
    exact hb.1
  induction body with
  | nil => exact ⟨fun _ _ hb => absurd hb not_mem_nil, fun _ => rfl⟩
  | cons b body ih =>
    have hbody := hle body
    rw [countP_cons, countP_cons, forall_mem_cons]
    by_cases hkind : b.kind = k
    · cases htext : startsWith [k.mark, k.mark] b.text with
      | false =>
        have hcounts : counts k b = true := by
          unfold counts
          rw [htext, decide_eq_true hkind]
          rfl
        simp only [hcounts, hkind, decide_true, if_true, Nat.add_right_cancel_iff, forall_const,
          true_and]
        exact ih
      | true =>
        have hcounts : counts k b = false := by
          unfold counts
          rw [htext, Bool.not_true, Bool.and_false]
        simp only [hcounts, hkind, decide_true, if_true, forall_const, false_and, iff_false,
          Bool.false_eq_true, Bool.true_eq_false, if_false, Nat.add_zero]
        omega
    · have hcounts : counts k b = false := by
        unfold counts
        rw [decide_eq_false hkind, Bool.false_and]
      simp only [hcounts, hkind, decide_false, Bool.false_eq_true, if_false, Nat.add_zero,
        false_implies, true_and]
      exact ih

theorem hunk_of_count (d : Diff) :
    (linesOf d ++ [[]]).countP (startsWith "@@".toList) ≠ 0 ↔ ∃ s ∈ d, s.hunks ≠ [] := by
  rw [← Nat.pos_iff_ne_zero, countP_pos_iff]
  constructor
  · rintro ⟨l, hl, hstart⟩
    rw [mem_append, mem_singleton] at hl
    rcases hl with hl | rfl
    · obtain ⟨s, hs, hl⟩ := mem_linesOf.mp hl
      refine ⟨s, hs, ?_⟩
      rcases hl with rfl | ⟨f, -, rfl⟩ | ⟨h, hh, -⟩ | ⟨h, hh, -⟩ | ⟨h, hh, -⟩
      · unfold gitLine at hstart
        exact absurd hstart Bool.false_ne_true
      · have hapart : apart "@@".toList f.1.start = true := by cases f.1 <;> decide
        unfold fieldLine at hstart
        rw [startsWith_of_apart hapart] at hstart
        exact absurd hstart Bool.false_ne_true
      · exact ne_nil_of_mem hh
      · exact ne_nil_of_mem hh
      · exact ne_nil_of_mem hh
    · exact absurd hstart (by decide)
  · rintro ⟨s, hs, hne⟩
    obtain ⟨h, hh⟩ := exists_mem_of_ne_nil _ hne
    refine ⟨h.header, ?_, startsWith_hunk h⟩
    rw [mem_append]
    exact .inl (mem_linesOf.mpr ⟨s, hs, .inr (.inr (.inl ⟨h, hh, rfl⟩))⟩)

theorem pairOf_gitLine (hp : PlainPath p) (hq : PlainPath q) :
    pairOf (gitLine p q) = some (p ++ newline :: q) := by
  unfold pairOf
  rw [matchGitLine_gitLine hp hq]
  rfl

theorem pairs_linesOf (h : ∀ s ∈ d, PlainPath s.source ∧ PlainPath s.path) :
    (linesOf d ++ [[]]).filterMap pairOf = d.map fun s => s.source ++ newline :: s.path := by
  have hempty : ([[]] : List Line).filterMap pairOf = [] := by decide
  rw [filterMap_append, hempty, append_nil]
  induction d with
  | nil => rfl
  | cons s d ih =>
    obtain ⟨hsource, hpath⟩ := h s mem_cons_self
    have hlines : linesOf (s :: d) = s.lines ++ linesOf d := flatMap_cons
    have hrest : (s.extended ++ hunkLines s.hunks).filterMap pairOf = [] := by
      rw [filterMap_eq_nil_iff]
      exact fun l hl => pairOf_of_not (PatchNormal.section_rest s l hl)
    unfold Section.lines at hlines
    rw [hlines, filterMap_append, filterMap_cons, pairOf_gitLine hsource hpath, hrest,
      ih fun u hu => h u (mem_cons_of_mem s hu)]
    rfl

/-! ### The names in a diff -/

theorem untilTab_spaceless (h : ∀ c ∈ l, jsSpace c = false) : untilTab l = l := by
  unfold untilTab
  rw [takeWhile_eq_self_iff]
  intro c hc
  rw [decide_eq_true_iff]
  rintro rfl
  exact absurd (h _ hc) (by decide)

variable {f : Field × Line} {path : Line}

theorem field_ne_name {change : Change} (hf : f ∈ change.fields path) :
    f.1 ≠ .oldName ∧ f.1 ≠ .newName := by
  have hmodes : ∀ modes, ∀ g ∈ modeFields modes, g.1 ≠ .oldName ∧ g.1 ≠ .newName := by
    intro modes g hg
    cases modes with
    | none => cases hg
    | some modes =>
      unfold modeFields at hg
      simp only [mem_cons, not_mem_nil, or_false] at hg
      rcases hg with rfl | rfl <;> simp
  unfold Change.fields at hf
  cases change with
  | modified modes => exact hmodes modes f hf
  | created mode | deleted mode =>
    rw [mem_singleton] at hf
    simp [hf]
  | renamed modes similarity source | copied modes similarity source =>
    simp only [mem_append, mem_cons, not_mem_nil, or_false] at hf
    rcases hf with hf | rfl | rfl | rfl
    · exact hmodes modes f hf
    all_goals simp

variable {s : Section}

theorem field_name (hf : f ∈ s.fields) (hname : f.1 = .oldName ∨ f.1 = .newName) :
    s.named = true ∧ (f.2 = devNull ∨ IsSide f.2 s.source ∨ IsSide f.2 s.path) := by
  unfold Section.fields at hf
  rw [mem_append, mem_append] at hf
  rcases hf with hf | hf | hf
  · exact absurd hname (not_or.mpr (field_ne_name hf))
  · cases hindex : s.index with
    | none =>
      rw [hindex] at hf
      cases hf
    | some i =>
      rw [hindex, Option.map_some, Option.toList_some, mem_singleton] at hf
      rw [hf] at hname
      exact hname.elim nofun nofun
  · split at hf
    · rename_i hnamed
      refine ⟨hnamed, ?_⟩
      rw [mem_cons, mem_singleton] at hf
      rcases hf with rfl | rfl
      · unfold Section.oldName
        split
        · exact .inl rfl
        · exact .inr (.inl (.inl rfl))
      · unfold Section.newName
        split
        · exact .inl rfl
        · exact .inr (.inr (.inr rfl))
    · cases hf

theorem field_of_touches (hnamed : s.named = true) (hp : p ∈ s.touches) :
    ∃ f ∈ s.fields, (f.1 = .oldName ∨ f.1 = .newName) ∧ IsSide f.2 p := by
  have hold : (Field.oldName, s.oldName) ∈ s.fields := by
    unfold Section.fields
    rw [hnamed]
    simp
  have hnew : (Field.newName, s.newName) ∈ s.fields := by
    unfold Section.fields
    rw [hnamed]
    simp
  have hcreated : ∀ mode, s.change = .created mode → s.newName = "b/".toList ++ s.path ∧
      s.source = s.path := by
    intro mode hchange
    unfold Section.newName Section.source
    rw [hchange]
    exact ⟨rfl, rfl⟩
  have hdeleted : ∀ mode, s.change = .deleted mode → s.oldName = "a/".toList ++ s.path ∧
      s.source = s.path := by
    intro mode hchange
    unfold Section.oldName Section.source
    rw [hchange]
    exact ⟨rfl, rfl⟩
  rcases mem_touches.mp hp with rfl | rfl
  · by_cases hchange : ∃ mode, s.change = .created mode
    · obtain ⟨mode, hchange⟩ := hchange
      obtain ⟨hname, hsource⟩ := hcreated mode hchange
      refine ⟨_, hnew, .inr rfl, .inr ?_⟩
      rw [hname, hsource]
    · refine ⟨_, hold, .inl rfl, .inl ?_⟩
      unfold Section.oldName
      split
      · rename_i mode hmode
        exact absurd ⟨mode, hmode⟩ hchange
      · rfl
  · by_cases hchange : ∃ mode, s.change = .deleted mode
    · obtain ⟨mode, hchange⟩ := hchange
      exact ⟨_, hold, .inl rfl, .inl (hdeleted mode hchange).1⟩
    · refine ⟨_, hnew, .inr rfl, .inr ?_⟩
      unfold Section.newName
      split
      · rename_i mode hmode
        exact absurd ⟨mode, hmode⟩ hchange
      · rfl

theorem names_fieldLine (hf : f ∈ s.fields) (hsource : PlainPath s.source)
    (hpath : PlainPath s.path) (h : Names (fieldLine f) path) :
    s.named = true ∧ path ∈ s.touches := by
  obtain ⟨name, hname, hread⟩ := h
  rw [nameTexts_fieldLine] at hname
  split at hname
  · rename_i hfield
    rw [mem_singleton] at hname
    subst hname
    obtain ⟨hnamed, htext⟩ := field_name hf hfield
    refine ⟨hnamed, ?_⟩
    have hside : ∀ p, PlainPath p → IsSide f.2 p → path = p := by
      intro p hp hside
      rw [untilTab_spaceless (hside.spaceless hp), normalizePatchPath_side hside hp] at hread
      split at hread
      · cases hread
      · cases hread
        rfl
    rcases htext with hnull | hside' | hside'
    · rw [hnull] at hread
      cases hread
    · exact mem_touches.mpr (.inl (hside _ hsource hside'))
    · exact mem_touches.mpr (.inr (hside _ hpath hside'))
  · cases hname

theorem readable_fieldLine (hf : f ∈ s.fields)
    (hsource : PlainPath s.source ∧ win32Absolute s.source = false)
    (hpath : PlainPath s.path ∧ win32Absolute s.path = false) : Readable (fieldLine f) := by
  have hgit : startsWith "diff --git ".toList (fieldLine f) = false :=
    startsWith_of_apart (apart_field f.1).2 f.2
  refine ⟨fun h => absurd (hgit.symm.trans h) Bool.false_ne_true, fun name hname => ?_⟩
  rw [nameTexts_fieldLine] at hname
  split at hname
  · rename_i hfield
    rw [mem_singleton] at hname
    subst hname
    have hside : ∀ p, PlainPath p ∧ win32Absolute p = false → IsSide f.2 p →
        ∃ path, normalizePatchPath (untilTab f.2) = .ok path := by
      intro p hp hside
      rw [untilTab_spaceless (hside.spaceless hp.1), normalizePatchPath_side hside hp.1, hp.2]
      exact ⟨_, rfl⟩
    rcases (field_name hf hfield).2 with hnull | hside' | hside'
    · rw [hnull]
      exact ⟨_, rfl⟩
    · exact hside _ hsource hside'
    · exact hside _ hpath hside'
  · cases hname

/-- A path that a section spells out is named by one of its lines, where they can be read. -/
theorem names_of_touches (hs : s ∈ d) (hp : p ∈ s.touches)
    (hplain : PlainPath s.source ∧ PlainPath s.path) (hspelled : s.named = true ∨ dropSide p = p)
    (hreadable : ∀ l ∈ linesOf d, Readable l) : ∃ l ∈ linesOf d, Names l p := by
  have hpath : PlainPath p := (mem_touches.mp hp).elim (fun h => h ▸ hplain.1) fun h => h ▸ hplain.2
  rcases hspelled with hnamed | hsame
  · obtain ⟨f, hf, hfield, hside⟩ := field_of_touches hnamed hp
    have hl : fieldLine f ∈ linesOf d := mem_linesOf.mpr ⟨s, hs, .inr (.inl ⟨f, hf, rfl⟩)⟩
    have hmem : f.2 ∈ nameTexts (fieldLine f) := by
      rw [nameTexts_fieldLine, if_pos hfield, untilTab_spaceless (hside.spaceless hpath)]
      exact mem_cons_self
    obtain ⟨path, hread⟩ := (hreadable _ hl).2 f.2 hmem
    refine ⟨_, hl, f.2, hmem, ?_⟩
    rw [normalizePatchPath_side hside hpath] at hread ⊢
    split at hread
    · cases hread
    · rename_i habsolute
      rw [if_neg habsolute]
  · have hl : gitLine s.source s.path ∈ linesOf d := mem_linesOf.mpr ⟨s, hs, .inl rfl⟩
    have hmem : p ∈ nameTexts (gitLine s.source s.path) := by
      rw [nameTexts_gitLine hplain.1 hplain.2, mem_cons, mem_singleton]
      exact mem_touches.mp hp
    obtain ⟨path, hread⟩ := (hreadable _ hl).2 p hmem
    refine ⟨_, hl, p, hmem, ?_⟩
    rw [normalizePatchPath_plain hpath, hsame] at hread ⊢
    split at hread
    · cases hread
    · rename_i habsolute
      rw [if_neg habsolute]

theorem InPlace.source_eq (hd : InPlace d) (hs : s ∈ d) : s.source = s.path := by
  unfold Section.source
  split
  · rename_i modes similarity source hchange
    exact absurd hchange (hd.change s hs modes similarity source).1
  · rename_i modes similarity source hchange
    exact absurd hchange (hd.change s hs modes similarity source).2
  · rfl

theorem InPlace.plain (hd : InPlace d) (hs : s ∈ d) : PlainPath s.source ∧ PlainPath s.path := by
  rw [hd.source_eq hs]
  exact ⟨hd.paths s hs, hd.paths s hs⟩

theorem InPlace.mem_touches (hd : InPlace d) (hs : s ∈ d) : p ∈ s.touches ↔ p = s.path := by
  rw [UnifiedDiff.mem_touches, hd.source_eq hs, or_self]

theorem mem_bodies (hs : s ∈ d) {h : Hunk} (hh : h ∈ s.hunks) {b : BodyLine} (hb : b ∈ h.body) :
    b ∈ bodies d := by
  exact mem_flatMap.mpr ⟨s, hs, mem_flatMap.mpr ⟨h, hh, hb⟩⟩

/-- Where no line of a hunk looks like a name, the lines that name files are those of headers. -/
theorem names_linesOf (hd : InPlace d) (hquiet : Quiet d) {l : Line} (hl : l ∈ linesOf d ++ [[]])
    (h : Names l path) : ∃ s ∈ d, (s.hunks ≠ [] ∧ path = s.path) ∨ path = dropSide s.path := by
  rw [mem_append, mem_singleton] at hl
  rcases hl with hl | rfl
  · obtain ⟨s, hs, hl⟩ := mem_linesOf.mp hl
    refine ⟨s, hs, ?_⟩
    obtain ⟨hsource, hpath⟩ := hd.plain hs
    rcases hl with rfl | ⟨f, hf, rfl⟩ | ⟨hunk, hh, rfl⟩ | ⟨hunk, hh, b, hb, rfl⟩ |
      ⟨hunk, hh, b, hb, -, rfl⟩
    · obtain ⟨name, hname, hread⟩ := h
      rw [hd.source_eq hs, nameTexts_gitLine hpath hpath, mem_cons, mem_singleton, or_self] at hname
      subst hname
      rw [normalizePatchPath_plain hpath] at hread
      split at hread
      · cases hread
      · cases hread
        exact .inr rfl
    · obtain ⟨hnamed, htouches⟩ := names_fieldLine hf hsource hpath h
      exact .inl ⟨(hd.wellFormed.sections s hs).named.mp hnamed, (hd.mem_touches hs).mp htouches⟩
    · obtain ⟨name, hname, -⟩ := h
      cases hname
    · obtain ⟨name, hname, -⟩ := h
      obtain ⟨hadded, hremoved⟩ := hquiet b (mem_bodies hs hh hb)
      rw [nameTexts_bodyLine hadded hremoved] at hname
      cases hname
    · obtain ⟨name, hname, -⟩ := h
      cases hname
  · obtain ⟨name, hname, -⟩ := h
    cases hname

theorem readable_of_nameTexts (hgit : startsWith "diff --git ".toList l = false)
    (hnames : nameTexts l = []) : Readable l := by
  refine ⟨fun h => absurd (hgit.symm.trans h) Bool.false_ne_true, fun name hname => ?_⟩
  rw [hnames] at hname
  cases hname

theorem readable_linesOf (hd : InPlace d) (hquiet : Quiet d)
    (hrelative : ∀ s ∈ d, win32Absolute s.path = false ∧ win32Absolute (dropSide s.path) = false) :
    ∀ l ∈ linesOf d ++ [[]], Readable l := by
  intro l hl
  rw [mem_append, mem_singleton] at hl
  rcases hl with hl | rfl
  · obtain ⟨s, hs, hl⟩ := mem_linesOf.mp hl
    obtain ⟨hsource, hpath⟩ := hd.plain hs
    obtain ⟨habsolute, hdropped⟩ := hrelative s hs
    rcases hl with rfl | ⟨f, hf, rfl⟩ | ⟨hunk, hh, rfl⟩ | ⟨hunk, hh, b, hb, rfl⟩ |
      ⟨hunk, hh, b, hb, -, rfl⟩
    · refine ⟨fun _ => ?_, fun name hname => ?_⟩
      · rw [matchGitLine_gitLine hsource hpath]
        rfl
      · rw [hd.source_eq hs, nameTexts_gitLine hpath hpath, mem_cons, mem_singleton,
          or_self] at hname
        subst hname
        rw [normalizePatchPath_plain hpath, hdropped]
        exact ⟨_, rfl⟩
    · refine readable_fieldLine hf ⟨hsource, ?_⟩ ⟨hpath, habsolute⟩
      rw [hd.source_eq hs]
      exact habsolute
    · exact readable_of_nameTexts (PatchNormal.header_ne_git hunk) (nameTexts_header hunk)
    · obtain ⟨hadded, hremoved⟩ := hquiet b (mem_bodies hs hh hb)
      exact readable_of_nameTexts (PatchNormal.startsWith_mark b.kind b.text).2
        (nameTexts_bodyLine hadded hremoved)
    · exact readable_of_nameTexts (by decide) nameTexts_rest.1
  · exact readable_of_nameTexts (by decide) nameTexts_rest.2

theorem trim_ne_nil {c : Char} (hc : c ∈ l) (hspace : jsSpace c = false) : trim l ≠ [] := by
  intro htrim
  unfold trim at htrim
  rw [reverse_eq_nil_iff, dropWhile_eq_nil_iff] at htrim
  have hmem : c ∈ l.dropWhile jsSpace := by
    rw [← takeWhile_append_dropWhile (p := jsSpace) (l := l), mem_append] at hc
    rcases hc with hc | hc
    · rw [mem_takeWhile_imp hc] at hspace
      cases hspace
    · exact hc
  rw [htrim c (mem_reverse.mpr hmem)] at hspace
  cases hspace

theorem trim_textOf (hne : d ≠ []) : trim (textOf d) ≠ [] := by
  obtain ⟨s, hs⟩ := exists_mem_of_ne_nil d hne
  have hl : gitLine s.source s.path ∈ linesOf d := mem_linesOf.mpr ⟨s, hs, .inl rfl⟩
  refine trim_ne_nil (c := 'd') ?_ (by decide)
  exact mem_flatMap.mpr ⟨_, hl, mem_append_left _ mem_cons_self⟩

theorem pair_injective : Function.Injective fun p : Line => p ++ newline :: p := by
  intro p q h
  have hlength := congrArg List.length h
  rw [length_append, length_append, length_cons, length_cons] at hlength
  exact (append_inj h (by omega)).1

theorem InPlace.pairs (hd : InPlace d) :
    (linesOf d ++ [[]]).filterMap pairOf =
      (d.map Section.path).map fun p => p ++ newline :: p := by
  rw [pairs_linesOf fun s hs => hd.plain hs, map_map]
  refine map_congr_left fun s hs => ?_
  rw [hd.source_eq hs]
  rfl

/-! ### Results -/

theorem legible_of_reported (hd : InPlace d) (h : Reported sha256 maxBytes d) : Legible d := by
  obtain ⟨m, hok, hfiles, hadded, hdeleted⟩ := h
  have hlines := lines_textOf (PatchNormal.printable_of hd.wellFormed)
  have hreadable := readable_of_ok hok
  have hmem := mem_files hok
  obtain ⟨-, -, hnul, hbinary, hsymlink, s, hs, -, hhunks, -, rfl⟩ :=
    inspectUnifiedPatch_eq_ok.mp hok
  have hadds := adds_of_run hs
  rw [hlines] at hadds hreadable hmem
  have hquiet : Quiet d := by
    rw [hadds.addedLines, countP_linesOf (by decide)] at hadded
    rw [hadds.deletedLines, countP_linesOf (by decide)] at hdeleted
    have hplus := (countP_counts_iff .added _).mp ((Nat.zero_add _).symm.trans hadded)
    have hminus := (countP_counts_iff .removed _).mp ((Nat.zero_add _).symm.trans hdeleted)
    exact fun b hb => ⟨hplus b hb, hminus b hb⟩
  have hgit : ∀ s ∈ d, win32Absolute (dropSide s.path) = false ∧
      dropSide s.path ∈ d.map Section.path := by
    intro s hs
    have hpath := hd.paths s hs
    have hl : gitLine s.source s.path ∈ linesOf d ++ [[]] :=
      mem_append_left _ (mem_linesOf.mpr ⟨s, hs, .inl rfl⟩)
    have hname : s.path ∈ nameTexts (gitLine s.source s.path) := by
      rw [hd.source_eq hs, nameTexts_gitLine hpath hpath]
      exact mem_cons_self
    obtain ⟨path, hread⟩ := (hreadable _ hl).2 _ hname
    rw [normalizePatchPath_plain hpath] at hread
    split at hread
    · cases hread
    · rename_i habsolute
      rw [Bool.not_eq_true] at habsolute
      refine ⟨habsolute, hfiles.mem_iff.mp ((hmem _).mpr ⟨_, hl, s.path, hname, ?_⟩)⟩
      rw [normalizePatchPath_plain hpath, habsolute]
      rfl
  refine ⟨?_, hnul, hbinary, hsymlink, hquiet, fun s hs => ?_, fun s hs => (hgit s hs).2,
    fun s hs => ?_⟩
  · rw [← hunk_of_count]
    intro hzero
    refine hhunks ?_
    rw [hadds.hunks, hzero]
  · rw [Bool.eq_false_iff]
    intro habsolute
    have hdropped := (hgit s hs).1
    rw [dropSide_of_win32Absolute (hd.paths s hs) habsolute, habsolute] at hdropped
    cases hdropped
  · have hfile := hfiles.mem_iff.mpr (mem_map_of_mem hs)
    obtain ⟨l, hl, hnames⟩ := (hmem _).mp hfile
    obtain ⟨u, hu, ⟨hhunk, hsame⟩ | hsame⟩ := names_linesOf hd hquiet hl hnames
    · have hone : s = u := inj_on_of_nodup_map (paths_nodup hd.wellFormed.touches) hs hu hsame
      rw [hone]
      exact .inl hhunk
    · exact .inr ⟨u, hu, hsame.symm⟩

theorem reported_of_legible (hd : InPlace d)
    (hbytes : byteLength (textOf d) ≤ maxBytes.getD maxPatchBytes) (h : Legible d) :
    Reported sha256 maxBytes d := by
  have hlines := lines_textOf (PatchNormal.printable_of hd.wellFormed)
  have hpaths := paths_nodup hd.wellFormed.touches
  have hrelative : ∀ s ∈ d,
      win32Absolute s.path = false ∧ win32Absolute (dropSide s.path) = false := by
    intro s hs
    obtain ⟨u, hu, hdropped⟩ := mem_map.mp (h.first s hs)
    rw [← hdropped]
    exact ⟨h.relative s hs, h.relative u hu⟩
  have hreadable := readable_linesOf hd h.quiet hrelative
  have hnodup : (([] : List Line) ++ (linesOf d ++ [[]]).filterMap pairOf).Nodup := by
    rw [hd.pairs]
    exact hpaths.map pair_injective
  obtain ⟨s, hs⟩ := run_of_readable (s := {}) hreadable hnodup
  have hadds := adds_of_run hs
  rw [← hlines] at hs
  have htouched : s.touched.reduceOption.Perm (d.map Section.path) := by
    rw [perm_ext_iff_of_nodup (nodup_touched hs) hpaths]
    intro path
    rw [mem_touched hs, hlines, mem_map]
    constructor
    · rintro ⟨l, hl, hnames⟩
      obtain ⟨u, hu, ⟨-, rfl⟩ | rfl⟩ := names_linesOf hd h.quiet hl hnames
      · exact ⟨u, hu, rfl⟩
      · exact mem_map.mp (h.first u hu)
    · rintro ⟨u, hu, rfl⟩
      have hall : ∀ l ∈ linesOf d, Readable l := fun l hl =>
        hreadable l (mem_append_left _ hl)
      have hown : ∀ v ∈ d, v.path ∈ v.touches := fun v hv => (hd.mem_touches hv).mpr rfl
      rcases h.reached u hu with hhunks | ⟨v, hv, hsame⟩
      · have hnamed := (hd.wellFormed.sections u hu).named.mpr hhunks
        obtain ⟨l, hl, hnames⟩ := names_of_touches hu (hown u hu) (hd.plain hu) (.inl hnamed) hall
        exact ⟨l, mem_append_left _ hl, hnames⟩
      · have hpath := hd.paths v hv
        refine ⟨gitLine v.source v.path, mem_append_left _
          (mem_linesOf.mpr ⟨v, hv, .inl rfl⟩), v.path, ?_, ?_⟩
        · rw [hd.source_eq hv, nameTexts_gitLine hpath hpath]
          exact mem_cons_self
        · rw [normalizePatchPath_plain hpath, (hrelative v hv).2, hsame]
          rfl
  have hlength := htouched.length_eq
  refine ⟨_, inspectUnifiedPatch_eq_ok.mpr ⟨trim_textOf hd.wellFormed.nonempty, hbytes, h.nul,
    h.binary, h.symlink, s, hs, ?_, ?_, ?_, rfl⟩, ?_, ?_, ?_⟩
  · rw [← length_pos_iff_ne_nil, hlength, length_map, length_pos_iff_ne_nil]
    exact hd.wellFormed.nonempty
  · rw [hadds.hunks]
    exact fun hzero => (hunk_of_count d).mpr h.hunk ((Nat.zero_add _).symm.trans hzero)
  · rw [hadds.diffPairs, hlength, length_append, hd.pairs, length_map]
    exact Nat.zero_add _
  · exact (mergeSort_perm _ _).trans htouched
  · dsimp only
    rw [hadds.addedLines, countP_linesOf (by decide),
      (countP_counts_iff .added _).mpr fun b hb => (h.quiet b hb).1]
    exact Nat.zero_add _
  · dsimp only
    rw [hadds.deletedLines, countP_linesOf (by decide),
      (countP_counts_iff .removed _).mpr fun b hb => (h.quiet b hb).2]
    exact Nat.zero_add _

theorem not_readable_of_quoted (h : startsWith "diff --git \"".toList l = true) : ¬ Readable l := by
  intro hreadable
  obtain ⟨rest, rfl⟩ := startsWith_iff.mp h
  have hgit : startsWith "diff --git ".toList ("diff --git \"".toList ++ rest) = true := rfl
  have hsome := hreadable.1 hgit
  cases hsome

/-- A text changes a path of some tree. -/
def Changes (text path : Line) : Prop := ∃ t t', applyText text t = some t' ∧ t' path ≠ t path

theorem touches_of_changes (hd : WellFormed d) (h : Changes (textOf d) path) :
    ∃ s ∈ d, path ∈ s.touches := by
  obtain ⟨t, t', hok, hne⟩ := h
  rw [applyText_textOf (PatchNormal.printable_of hd), applyDiff_eq_some_iff hd.touches] at hok
  have hmem : path ∈ d.flatMap Section.touches := by
    by_contra hnot
    exact hne (hok.2 path hnot)
  exact mem_flatMap.mp hmem

/-- A diff that changes its files in place is reported exactly just if it is legible, and one with
quoted names is not accepted. The files of an accepted text hold every path that it changes just if
some line names each; a diff names those that stand behind three signs or begin with no side. -/
theorem inspection_iff (sha256 : Line → η) (maxBytes : Option ℕ) :
    (∀ d, InPlace d → byteLength (textOf d) ≤ maxBytes.getD maxPatchBytes →
      (Reported sha256 maxBytes d ↔ Legible d)) ∧
    (∀ text m, (∃ l ∈ lines text, startsWith "diff --git \"".toList l = true) →
      inspectUnifiedPatch sha256 maxBytes text ≠ .ok m) ∧
    (∀ text m, inspectUnifiedPatch sha256 maxBytes text = .ok m →
      ((∀ path, Changes text path → path ∈ m.files) ↔
        ∀ path, Changes text path → ∃ l ∈ lines text, Names l path)) ∧
    ∀ d m, WellFormed d → inspectUnifiedPatch sha256 maxBytes (textOf d) = .ok m →
      ∀ path, Changes (textOf d) path → ∃ s ∈ d, path ∈ s.touches ∧
        (PlainPath s.source ∧ PlainPath s.path → s.named = true ∨ dropSide path = path →
          path ∈ m.files) := by
  refine ⟨fun d hd hbytes => ⟨legible_of_reported hd, reported_of_legible hd hbytes⟩, ?_, ?_, ?_⟩
  · rintro text m ⟨l, hl, hquoted⟩ hok
    exact not_readable_of_quoted hquoted (readable_of_ok hok l hl)
  · intro text m hok
    exact forall_congr' fun path => imp_congr_right fun _ => mem_files hok path
  · intro d m hd hok path hchanges
    obtain ⟨s, hs, htouches⟩ := touches_of_changes hd hchanges
    have hreadable := readable_of_ok hok
    rw [lines_textOf (PatchNormal.printable_of hd)] at hreadable
    refine ⟨s, hs, htouches, fun hplain hspelled => ?_⟩
    rw [mem_files hok, lines_textOf (PatchNormal.printable_of hd)]
    obtain ⟨l, hl, hnames⟩ := names_of_touches hs htouches hplain hspelled fun l hl =>
      hreadable l (mem_append_left _ hl)
    exact ⟨l, mem_append_left _ hl, hnames⟩

theorem inPlace_value {hunks : List Hunk} (hd : WellFormed [PatchNormal.valueSection hunks]) :
    InPlace [PatchNormal.valueSection hunks] where
  wellFormed := hd
  change := by
    intro s hs modes similarity source
    rw [mem_singleton] at hs
    subst hs
    exact ⟨nofun, nofun⟩
  paths := by
    intro s hs
    have hpath : PlainPath "src/value.txt".toList := ⟨by simp; decide, by decide⟩
    rw [mem_singleton] at hs
    subst hs
    exact hpath

theorem inspection_edited : Reported id none [PatchNormal.valueSection [PatchNormal.edited]] := by
  have hd : WellFormed [PatchNormal.valueSection [PatchNormal.edited]] :=
    PatchNormal.wellFormed_value (by decide) (by decide) (by decide) (by decide)
      ⟨by decide, trivial⟩ ⟨by decide, trivial⟩ (by decide) (by decide)
  refine ((inspection_iff id none).1 _ (inPlace_value hd) (by decide)).mpr ?_
  exact {
    hunk := ⟨_, mem_cons_self, by decide⟩
    nul := by decide
    binary := by decide
    symlink := by decide
    quiet := by
      unfold Quiet
      decide
    relative := by decide
    first := by decide
    reached := by decide
  }

/-- A comment of two dashes goes. -/
def uncommented : Hunk where
  oldStart := 1
  newStart := 1
  body := [⟨.removed, "-- old note".toList, false⟩, ⟨.added, "one".toList, false⟩]

/-- The mode of a file in the directory `b`. -/
def modeSection : Section where
  path := "b/x".toList
  change := .modified (some ("100644".toList, "100755".toList))
  named := false
  hunks := []

def modeDiff : Diff := [modeSection, PatchNormal.valueSection [PatchNormal.edited]]

def modeInspection : Inspection where
  touched := [some "x".toList, some "src/value.txt".toList]
  diffPairs := ["b/x\nb/x".toList, "src/value.txt\nsrc/value.txt".toList]
  addedLines := 1
  deletedLines := 1
  hunks := 1

/-- A diff that takes out a comment of two dashes is not reported, and a diff that is accepted
changes a file that it does not report. -/
theorem report_lost :
    (InPlace [PatchNormal.valueSection [uncommented]] ∧
        byteLength (textOf [PatchNormal.valueSection [uncommented]]) ≤ maxPatchBytes ∧
        ¬ Reported id none [PatchNormal.valueSection [uncommented]]) ∧
      ∃ m, inspectUnifiedPatch id none (textOf modeDiff) = .ok m ∧
        Changes (textOf modeDiff) "b/x".toList ∧ "b/x".toList ∉ m.files := by
  have hd : WellFormed [PatchNormal.valueSection [uncommented]] :=
    PatchNormal.wellFormed_value (by decide) (by decide) (by decide) (by decide)
      ⟨by decide, trivial⟩ ⟨by decide, trivial⟩ (by decide) (by decide)
  have hrun : (lines (textOf modeDiff)).foldlM inspectLine {} = .ok modeInspection := by decide
  have hchanges : (applyText (textOf modeDiff) (treeBefore modeDiff)).map
      (fun t => decide (t "b/x".toList = treeBefore modeDiff "b/x".toList)) = some false := by
    decide
  refine ⟨⟨inPlace_value hd, by decide, fun hreported => ?_⟩, _,
    inspectUnifiedPatch_eq_ok.mpr ⟨?_, ?_, ?_, ?_, ?_, _, hrun, ?_, ?_, ?_, rfl⟩, ?_, ?_⟩
  · have hquiet := (legible_of_reported (inPlace_value hd) hreported).quiet
    have hbad := (hquiet _ (mem_bodies mem_cons_self mem_cons_self mem_cons_self)).2 rfl
    exact absurd hbad (by decide)
  · decide
  · decide +kernel
  · decide
  · decide
  · decide
  · decide
  · decide
  · decide
  · obtain ⟨t', ht', hne⟩ := Option.map_eq_some_iff.mp hchanges
    exact ⟨_, t', ht', of_decide_eq_false hne⟩
  · rw [mem_mergeSort]
    decide

end Ds4Studio.Evolution.PatchInspection
