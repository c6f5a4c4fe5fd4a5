import Ds4Studio.Web.ReadGuard

/-!
What the model has seen of the files. A read delivers the lines that it shows, a write or an edit
takes back all of its file; the guard is told of both by the text of a path.
-/

namespace Ds4Studio.Web

open List Option Function

/-! ### The loop -/

/-- The surroundings of the loop: two paths may lead to one file. -/
structure Workspace (F : Type) extends Numerals where
  resolveToolPath : List Char → Except (List Char) (List Char)
  fileOf : List Char → F
  limits : BatchLimits

/-- `delivered`: the lines that reads have handed to the model since the file was last written or
edited. -/
structure Reading (F : Type) where
  disk : F → Option TextFile
  guard : ReadGuard
  delivered : F → Finset ℕ

/-- The loop asks the guard about a read; a read runs, the loop guard may stop its result, and
`compressToolResultForModel` may leave only some lines of it; a write or an edit succeeds, and the
loop guard may stop it in front of the read guard. -/
inductive LoopAction where
  | check (args : ReadArgs) (mode : ReadMode)
  | read (args : ReadArgs) (stopped : Bool) (left : Option (Finset ℕ))
  | modify (path : List Char) (file : TextFile) (stopped : Bool)
  | beginTurn
  | summary
  | clear

/-- The number of a line. -/
def lineNumber : Num → Option ℕ
  | .fin q => if q.den = 1 ∧ 0 ≤ q.num then some q.num.toNat else none
  | _ => none

/-- The lines that a page shows. -/
def ReadPage.lines (page : ReadPage) : Finset ℕ :=
  (page.pieces.filterMap fun piece => if piece.2.isSome then lineNumber piece.1 else none).toFinset

/-- The lines of a page that the model gets, by what compression leaves. -/
def ReadPage.handed (page : ReadPage) : Option (Finset ℕ) → Finset ℕ
  | none => page.lines
  | some left => page.lines ∩ left

/-- `content.length` -/
def utf16Length (text : List Char) : ℕ := (text.map fun c => if c.toNat < 0x10000 then 1 else 2).sum

namespace Workspace

variable {F : Type} (ws : Workspace F)

def host (disk : F → Option TextFile) : Host where
  toNumerals := ws.toNumerals
  resolveToolPath := ws.resolveToolPath
  access resolved := (disk (ws.fileOf resolved)).isSome
  readFile resolved :=
    match disk (ws.fileOf resolved) with
    | some file => .ok file
    | none => .error []

/-- The file that a path leads to. -/
def file (path : List Char) : Option F :=
  match ws.resolveToolPath path with
  | .ok resolved => some (ws.fileOf resolved)
  | .error _ => none

variable [DecidableEq F]

def step (s : Reading F) : LoopAction → Reading F
  | .check args mode => { s with guard := (s.guard.checkRead ws.doubles ws.limits args mode).2 }
  | .read args stopped left =>
      if stopped then s
      else
        match toolRead (ws.host s.disk) args, ws.file args.path with
        | .ok page, some f =>
            { s with
              delivered := update s.delivered f (s.delivered f ∪ page.handed left)
              guard := s.guard.rememberRead ws.doubles args page.nextOffset
                (utf16Length (page.content ws.digits)) }
        | _, _ => s
  | .modify path file stopped =>
      match ws.file path with
      | none => s
      | some f =>
          { disk := update s.disk f (some file)
            delivered := update s.delivered f ∅
            guard := if stopped then s.guard else s.guard.invalidatePath path }
  | .beginTurn => { s with guard := s.guard.beginTurn }
  | .summary => { s with guard := s.guard.markSummaryProduced }
  | .clear => { s with guard := s.guard.clearAll }

def Step (s : Reading F) (a : LoopAction) (t : Reading F) : Prop := t = ws.step s a

def start (disk : F → Option TextFile) : Reading F := ⟨disk, .new, fun _ => ∅⟩

end Workspace

/-! ### Lines of a page -/

@[simp]
theorem lineNumber_nat (n : ℕ) : lineNumber (.nat n) = some n := by simp [lineNumber, Num.nat]

theorem mem_lines {page : ReadPage} {n : ℕ} : n ∈ page.lines ↔
    ∃ piece ∈ page.pieces, piece.2.isSome = true ∧ lineNumber piece.1 = some n := by
  simp only [ReadPage.lines, List.mem_toFinset, mem_filterMap]
  constructor
  · rintro ⟨piece, hpiece, h⟩
    split at h
    case isTrue hsome => exact ⟨piece, hpiece, hsome, h⟩
    case isFalse => cases h
  · rintro ⟨piece, hpiece, hsome, h⟩
    exact ⟨piece, hpiece, by rw [if_pos hsome, h]⟩

variable {lines : List (List Char)}

theorem mem_numbered {a count n : ℕ} (ha : 1 ≤ a) (hle : a + count ≤ lines.length + 1) :
    (∃ piece ∈ numbered lines a count, piece.2.isSome = true ∧ lineNumber piece.1 = some n) ↔
      a ≤ n ∧ n < a + count := by
  simp only [numbered, List.mem_map, mem_range'_1]
  constructor
  · rintro ⟨piece, ⟨k, ⟨hk, hkn⟩, rfl⟩, -, h⟩
    obtain rfl := some.inj h
    exact ⟨hk, hkn⟩
  · rintro ⟨hn, hlt⟩
    refine ⟨_, ⟨n, ⟨hn, hlt⟩, rfl⟩, ?_, lineNumber_nat n⟩
    rw [getElem?_eq_getElem (by omega)]
    rfl

variable {num : Numerals}

theorem readLoop_pieces {endLine : Num}
    (hend : ∀ i : Num, i.lt endLine = true → i.lt (.nat lines.length) = true)
    (hlines : lines.length ≤ 2 ^ 29) {passes m : ℕ} {i : Num} (hi : (Num.nat m).le i = true)
    (bytes : ℕ) (actualEnd : Num) :
    ∀ piece ∈ (readLoop num lines endLine passes i bytes actualEnd).1, ∃ j : Num,
      piece = (num.doubles.add j (.nat 1), lineAt lines j) ∧ (Num.nat m).le j = true ∧
        j.lt endLine = true := by
  induction passes generalizing i bytes actualEnd with
  | zero =>
    intro piece hpiece
    cases hpiece
  | succ passes ih =>
    unfold readLoop
    split
    case isFalse =>
      intro piece hpiece
      cases hpiece
    case isTrue hlt =>
      simp only
      split
      case isTrue =>
        intro piece hpiece
        cases hpiece
      case isFalse =>
        intro piece hpiece
        rcases mem_cons.mp hpiece with rfl | hpiece
        · exact ⟨i, rfl, hi, hlt⟩
        · have hless := Num.lt_of_le_of_lt hi (hend i hlt)
          rw [Num.lt_nat] at hless
          have hnext := num.doubles.add_mono hi 1
          rw [show Num.fin 1 = .nat 1 by simp [Num.nat], num.doubles.add_nat (by omega)] at hnext
          exact ih (Num.le_trans (Num.le_nat.mpr (Nat.le_succ m)) hnext) _ _ piece hpiece

theorem lineAt_isSome {i : Num} (h : (lineAt lines i).isSome = true) :
    ∃ k, i = .nat k ∧ k < lines.length := by
  unfold lineAt at h
  split at h
  case h_1 q =>
    split at h
    case isTrue hq =>
      have hnum : ((q.num.toNat : ℤ) : ℚ) = q := by
        rw [Int.toNat_of_nonneg hq.2]
        exact (Rat.den_eq_one_iff q).mp hq.1
      exact ⟨q.num.toNat, by rw [Num.nat, ← Int.cast_natCast, hnum], by simpa using h⟩
    case isFalse => cases h
  case h_2 => cases h

theorem pieces_congr {resolved resolved' : List Char} {file : TextFile}
    {args args' : ReadArgs} (hstart : startOf args.startLine = startOf args'.startLine)
    (hmax : maxLinesOf args file.lines.length = maxLinesOf args' file.lines.length) :
    (readPage num resolved file args).lines = (readPage num resolved' file args').lines := by
  unfold ReadPage.lines readPage
  simp only [hstart, hmax]

section

variable {num : Numerals} {resolved : List Char} {file : TextFile} {args : ReadArgs}

/-- A page shows lines of the file, from its start on and in front of the end asked for. -/
theorem lines_subset {m n : ℕ} (hm : 1 ≤ m)
    (hstart : (Num.nat m).le (startOf args.startLine) = true)
    (hn : n ∈ (readPage num resolved file args).lines) :
    m ≤ n ∧ n ≤ file.lines.length ∧ (Num.nat (n - 1)).lt (requestedEnd num file args) = true := by
  have hlines := file.lines_length
  -- A start behind the whole numbers of a double is behind the file.
  have hfirst : (Num.nat (min m (2 ^ 53) - 1)).le
      (num.doubles.sub (startOf args.startLine) (.nat 1)) = true := by
    have hle := Num.le_trans (Num.le_nat.mpr (Nat.min_le_left m (2 ^ 53))) hstart
    have hsum := num.doubles.add_mono hle (-1)
    change (num.doubles.sub (.nat _) (.nat 1)).le _ = true at hsum
    rwa [num.doubles.sub_nat (Nat.min_le_right m _) (by omega)] at hsum
  obtain ⟨piece, hpiece, hsome, hnumber⟩ := mem_lines.mp hn
  have hpieces : (readPage num resolved file args).pieces = (readLoop num file.lines
      (requestedEnd num file args) (file.lines.length + 1)
      (num.doubles.sub (startOf args.startLine) (.nat 1)) 0
      (num.doubles.sub (startOf args.startLine) (.nat 1))).1 := rfl
  rw [hpieces] at hpiece
  obtain ⟨j, rfl, hj, hlt⟩ := readLoop_pieces (fun _ hlt => (Num.lt_min_iff.mp hlt).1) hlines hfirst
    _ _ piece hpiece
  obtain ⟨k, rfl, hk⟩ := lineAt_isSome hsome
  rw [num.doubles.add_nat (by omega), lineNumber_nat] at hnumber
  obtain rfl := some.inj hnumber
  rw [Num.le_nat] at hj
  exact ⟨by omega, by omega, hlt⟩

variable (num resolved) in
theorem lines_nat {s : ℕ} (hs : 1 ≤ s) (hle : s ≤ file.lines.length)
    (hstart : startOf args.startLine = .nat s) :
    ∃ n, s + n ≤ file.lines.length + 1 ∧
      (∀ k, k ∈ (readPage num resolved file args).lines ↔ s ≤ k ∧ k < s + n) ∧
      ((readPage num resolved file args).byteTruncated = false →
        ∀ k, s ≤ k → k ≤ file.lines.length →
          (Num.nat (k - 1)).lt (requestedEnd num file args) = true → k < s + n) := by
  obtain ⟨n, hn, hpieces, -, -, -, hstop⟩ := readPage_nat num resolved hs hle hstart
  refine ⟨n, hn, fun k => ?_, fun hopen k hk _ hlt => ?_⟩
  · rw [mem_lines, hpieces]
    exact mem_numbered hs hn
  · rw [hopen, if_neg nofun] at hstop
    by_contra hge
    have hless := Num.lt_of_le_of_lt (Num.le_nat.mpr (by omega : s - 1 + n ≤ k - 1)) hlt
    exact absurd (hstop.symm.trans hless) nofun

end

/-! ### What is remembered -/

namespace Workspace

variable {F : Type} {ws : Workspace F} {args : ReadArgs}

theorem toolRead_host {disk : F → Option TextFile} {page : ReadPage}
    (h : toolRead (ws.host disk) args = .ok page) :
    args.path ≠ [] ∧ ∃ resolved f text, ws.file args.path = some f ∧ disk f = some text ∧
      page = readPage ws.toNumerals resolved text args := by
  unfold toolRead at h
  split at h
  case isTrue => cases h
  case isFalse hpath =>
    refine ⟨hpath, ?_⟩
    unfold file
    cases hresolve : (ws.host disk).resolveToolPath args.path with
    | error => rw [hresolve] at h; cases h
    | ok resolved =>
      rw [hresolve] at h
      rw [show ws.resolveToolPath args.path = .ok resolved from hresolve]
      simp only at h
      split at h
      case isFalse => cases h
      case isTrue =>
        unfold host at h
        simp only at h
        cases htext : disk (ws.fileOf resolved) with
        | none => rw [htext] at h; cases h
        | some text =>
          rw [htext] at h
          exact ⟨resolved, _, text, rfl, htext, (Except.ok.inj h).symm⟩

/-- A remembered range: what the same call would show, and what the range holds, has been
delivered. -/
structure Kept (ws : Workspace F) (s : Reading F) (key range : ReadRange) : Prop where
  path : range.path = key.path
  given : key.path ≠ []
  shown : ∃ f text, ws.file key.path = some f ∧ s.disk f = some text ∧
    (∀ args resolved, readRangeOf args = some key →
      (readPage ws.toNumerals resolved text args).lines ⊆ s.delivered f) ∧
    ∃ a, 1 ≤ a ∧ range.offset = .nat a ∧ ∀ n, a ≤ n → n ≤ text.lines.length →
      (Num.nat (n - 1)).lt (rangeEnd ws.doubles range) = true → n ∈ s.delivered f

def Faithful (ws : Workspace F) (s : Reading F) : Prop :=
  ∀ key range, (key, range) ∈ s.guard.seen → Kept ws s key range

variable {key : ReadRange} {s : Reading F}

theorem Kept.mono {t : Reading F} {range : ReadRange} (h : Kept ws s key range)
    (hmono : ∀ f, ws.file key.path = some f → t.disk f = s.disk f ∧ s.delivered f ⊆ t.delivered f) :
    Kept ws t key range := by
  obtain ⟨f, text, hfile, htext, hagain, a, ha, hoffset, hholds⟩ := h.shown
  obtain ⟨hdisk, hdelivered⟩ := hmono f hfile
  exact ⟨h.path, h.given, f, text, hfile, hdisk.trans htext,
    fun args resolved hargs => (hagain args resolved hargs).trans hdelivered, a, ha, hoffset,
    fun n hn hle hlt => hdelivered (hholds n hn hle hlt)⟩

/-- A step on which the guard stays right: a read starts at a line, its result is not compressed,
and it shows all that it asks for, or reads on as far as it can; behind a write or an edit nothing
is remembered of the file. -/
def Allowed (ws : Workspace F) (s : Reading F) : LoopAction → Prop
  | .read args stopped left => stopped = true ∨ left = none ∧ ∀ f text,
      ws.file args.path = some f → s.disk f = some text → ∃ a, startOf args.startLine = .nat a ∧
        if args.whole then
          a ≤ text.lines.length → pieceBytes ws.toNumerals text.lines a ≤ readMaxBytes
        else ∀ resolved, (readPage ws.toNumerals resolved text args).byteTruncated = false
  | .modify path _ stopped => ∀ f, ws.file path = some f → ∀ entry ∈ s.guard.seen,
      ws.file entry.2.path = some f → stopped = false ∧ entry.2.path = path
  | _ => True

theorem startOf_range (h : readRangeOf args = some key) :
    args.path ≠ [] ∧ key.path = args.path ∧ key.offset = startOf args.startLine ∧
      key.limit = if args.whole then .all
        else .lines (args.maxLines.orElse (.nat defaultMaxLines)) := by
  unfold readRangeOf at h
  split at h
  case isTrue => cases h
  case isFalse hpath =>
    obtain rfl := some.inj h
    exact ⟨hpath, rfl, rfl, rfl⟩

theorem maxLines_range (h : readRangeOf args = some key) (totalLines : ℕ) :
    maxLinesOf args totalLines =
      match key.limit with
      | .all => .nat totalLines
      | .lines n => n := by
  obtain ⟨-, -, -, hlimit⟩ := startOf_range h
  rw [hlimit]
  unfold maxLinesOf
  cases args.whole <;> rfl

theorem lines_range {resolved : List Char} (resolved' : List Char)
    {file : TextFile} {args' : ReadArgs} (h : readRangeOf args = some key)
    (h' : readRangeOf args' = some key) :
    (readPage num resolved file args).lines = (readPage num resolved' file args').lines := by
  obtain ⟨-, -, hstart, -⟩ := startOf_range h
  obtain ⟨-, -, hstart', -⟩ := startOf_range h'
  exact pieces_congr (hstart.symm.trans hstart')
    ((maxLines_range h _).trans (maxLines_range h' _).symm)

theorem remembered_path (d : Doubles) (range : ReadRange) (nextOffset : Option Num) :
    (ReadGuard.remembered d range nextOffset).path = range.path ∧
      (ReadGuard.remembered d range nextOffset).offset = range.offset := by
  unfold ReadGuard.remembered
  repeat' split
  all_goals exact ⟨rfl, rfl⟩

theorem remembered_shown {resolved : List Char} {text : TextFile}
    (hkey : readRangeOf args = some key) {a : ℕ} (ha : 1 ≤ a)
    (hle : a ≤ text.lines.length) (hstart : startOf args.startLine = .nat a)
    (hread : if args.whole then pieceBytes num text.lines a ≤ readMaxBytes
      else (readPage num resolved text args).byteTruncated = false) {n : ℕ} (hn : a ≤ n)
    (hnle : n ≤ text.lines.length)
    (hlt : (Num.nat (n - 1)).lt (rangeEnd num.doubles (ReadGuard.remembered num.doubles key
      (readPage num resolved text args).nextOffset)) = true) :
    n ∈ (readPage num resolved text args).lines := by
  have hlines := text.lines_length
  obtain ⟨-, -, hoffset, hlimit⟩ := startOf_range hkey
  cases hwhole : args.whole with
  | false =>
    rw [hwhole, if_neg nofun] at hread hlimit
    obtain ⟨count, -, hmem, hall⟩ := lines_nat num resolved ha hle hstart
    refine (hmem n).mpr ⟨hn, hall hread n hn hnle ?_⟩
    unfold requestedEnd
    rw [Num.lt_min_iff]
    refine ⟨Num.lt_nat.mpr (by omega), ?_⟩
    unfold ReadGuard.remembered rangeEnd at hlt
    simp only [hoffset, hlimit] at hlt
    unfold maxLinesOf
    rw [hwhole]
    exact hlt
  | true =>
    rw [hwhole, if_pos rfl] at hread hlimit
    have hmax : (readPage num resolved text args).maxLines = .nat text.lines.length := by
      change maxLinesOf args text.lines.length = _
      rw [maxLinesOf, hwhole, if_pos rfl]
    have hreaches : (readPage num resolved text args).Reaches num.doubles :=
      (reaches_of_maxLines ha (by omega) hstart).1 (by rw [hmax, Num.le_nat]; omega)
    obtain ⟨count, hsome, hcount, hpieces, hend, -⟩ :=
      shown_of_reported ha hle hstart ((reported_nat _ _ _ _ ha hle hstart).mpr ⟨hreaches, hread⟩)
    rw [mem_lines, hpieces, mem_numbered ha hcount]
    rw [nextOffset_eq, hend] at hlt
    split at hlt
    case isFalse hlast =>
      rw [Num.lt_nat] at hlast
      omega
    case isTrue hless =>
      rw [num.doubles.add_nat (by omega), show a + count - 1 + 1 = a + count by omega] at hlt
      have hremembered : ReadGuard.remembered num.doubles key (some (.nat (a + count))) =
          { key with limit := .lines (.nat count) } := by
        unfold ReadGuard.remembered
        rw [hlimit, hoffset, hstart]
        simp only
        rw [if_pos (Num.lt_nat.mpr (by omega)), num.doubles.sub_nat (by omega) (by omega),
          Nat.add_sub_cancel_left]
      have hrange : rangeEnd num.doubles { key with limit := .lines (.nat count) } =
          .nat (a + count - 1) := by
        unfold rangeEnd
        simp only
        rw [hoffset, hstart, num.doubles.add_nat (by omega),
          num.doubles.sub_nat (by omega) (by omega)]
      rw [hremembered, hrange, Num.lt_nat] at hlt
      omega

/-! ### One step -/

theorem checkRead_seen (d : Doubles) (limits : BatchLimits) (guard : ReadGuard) (args : ReadArgs)
    (mode : ReadMode) : (guard.checkRead d limits args mode).2.seen = guard.seen := by
  unfold ReadGuard.checkRead
  repeat' split
  all_goals rfl

theorem mem_set {seen : List (ReadRange × ReadRange)} {range : ReadRange}
    {entry : ReadRange × ReadRange} (h : entry ∈ ReadGuard.set seen key range) :
    entry = (key, range) ∨ entry ∈ seen := by
  unfold ReadGuard.set at h
  split at h
  · obtain ⟨old, hold, rfl⟩ := List.mem_map.mp h
    split
    · exact .inl rfl
    · exact .inr hold
  · simpa [or_comm] using h

variable [DecidableEq F]

theorem step_read {left : Option (Finset ℕ)} (h : Faithful ws s)
    (hallowed : Allowed ws s (.read args false left)) :
    Faithful ws (ws.step s (.read args false left)) := by
  obtain ⟨rfl, hshows⟩ := hallowed.resolve_left nofun
  simp only [step, ReadPage.handed, Bool.false_eq_true, if_false]
  split
  case h_2 => exact h
  case h_1 page f hpage hfile =>
    obtain ⟨hpath, resolved, f', text, hfile', htext, rfl⟩ := toolRead_host hpage
    obtain rfl := some.inj (hfile.symm.trans hfile')
    have hgrows : ∀ g, s.delivered g ⊆ update s.delivered f
        (s.delivered f ∪ (readPage ws.toNumerals resolved text args).lines) g := by
      intro g
      by_cases hg : g = f
      · subst hg
        rw [update_self]
        exact Finset.subset_union_left
      · rw [update_of_ne hg]
    obtain ⟨key, hkey⟩ : ∃ key, readRangeOf args = some key := ⟨_, if_neg hpath⟩
    obtain ⟨-, hkeyPath, hoffset, -⟩ := startOf_range hkey
    intro key' range' hentry
    simp only [ReadGuard.rememberRead, hkey] at hentry
    rcases mem_set hentry with hnew | hold
    · rw [Prod.mk.injEq] at hnew
      obtain ⟨rfl, rfl⟩ := hnew
      obtain ⟨a, hstart, hread⟩ := hshows f text hfile htext
      have ha : 1 ≤ a := by
        have hone := one_le_startOf args.startLine
        rwa [hstart, Num.le_nat] at hone
      obtain ⟨hrange, hrangeOffset⟩ := remembered_path ws.doubles key'
        (readPage ws.toNumerals resolved text args).nextOffset
      refine ⟨hrange, by rw [hkeyPath]; exact hpath, f, text, by rw [hkeyPath]; exact hfile, htext,
        fun args' resolved' hargs' => ?_, a, ha, by rw [hrangeOffset, hoffset, hstart],
        fun n hn hle hlt => ?_⟩
      · simp only [update_self]
        rw [lines_range resolved hargs' hkey]
        exact Finset.subset_union_right
      · simp only [update_self]
        refine Finset.mem_union_right _
          (remembered_shown hkey ha (hn.trans hle) hstart ?_ hn hle hlt)
        split at hread
        · rw [if_pos ‹_›]
          exact hread (hn.trans hle)
        · rw [if_neg ‹_›]
          exact hread resolved
    · exact (h key' range' hold).mono fun g _ => ⟨rfl, hgrows g⟩

theorem step_modify {path : List Char} {text : TextFile} {stopped : Bool} (h : Faithful ws s)
    (hallowed : Allowed ws s (.modify path text stopped)) :
    Faithful ws (ws.step s (.modify path text stopped)) := by
  unfold step
  simp only
  split
  case h_1 => exact h
  case h_2 f hfile =>
    intro key range hentry
    have hold : (key, range) ∈ s.guard.seen := by
      split at hentry
      · exact hentry
      · unfold ReadGuard.invalidatePath at hentry
        split at hentry
        · exact hentry
        · exact mem_of_mem_filter hentry
    have hkept := h key range hold
    refine hkept.mono fun g hg => ?_
    have hne : g ≠ f := by
      rintro rfl
      obtain ⟨rfl, hpath⟩ := hallowed g hfile (key, range) hold (by rw [hkept.path]; exact hg)
      simp only at hentry hpath
      rw [if_neg nofun] at hentry
      unfold ReadGuard.invalidatePath at hentry
      rw [if_neg (by rw [← hpath, hkept.path]; exact hkept.given)] at hentry
      simp [hpath] at hentry
    simp only
    rw [update_of_ne hne, update_of_ne hne]
    exact ⟨rfl, Finset.Subset.refl _⟩

theorem step_faithful {a : LoopAction} (h : Faithful ws s) (hallowed : Allowed ws s a) :
    Faithful ws (ws.step s a) := by
  cases a with
  | check args mode =>
    intro key range hentry
    rw [step, checkRead_seen] at hentry
    exact (h key range hentry).mono fun _ _ => ⟨rfl, Finset.Subset.refl _⟩
  | read args stopped left =>
    cases stopped with
    | true => exact h
    | false => exact step_read h hallowed
  | modify path text stopped => exact step_modify h hallowed
  | beginTurn | summary =>
    exact fun key range hentry => (h key range hentry).mono fun _ _ => ⟨rfl, Finset.Subset.refl _⟩
  | clear => exact fun key range hentry => (nomatch hentry)

omit [DecidableEq F] in
theorem start_faithful (disk : F → Option TextFile) : Faithful ws (start disk) :=
  fun _ _ hentry => (nomatch hentry)

theorem Faithful.run {disk : F → Option TextFile}
    (h : Run.Guarded ws.Step (Allowed ws) (start disk) s) : Faithful ws s :=
  h.invariant (fun s a t hs (hstep : t = ws.step s a) ha => hstep ▸ step_faithful hs ha)
    (start_faithful disk)

end Workspace

/-! ### What is blocked -/

namespace Workspace

variable {F : Type} {ws : Workspace F} {d : Doubles} {mode : ReadMode}

theorem checkRead_cases {limits : BatchLimits} {guard : ReadGuard} {args : ReadArgs}
    {decision : Decision} (h : (guard.checkRead d limits args mode).1 = some decision) :
    ∃ range, readRangeOf args = some range ∧
      match decision with
      | .duplicate => ∃ seen, (range, seen) ∈ guard.seen
      | .covered seen => ∃ key, (key, seen) ∈ guard.seen ∧ seen.path = range.path ∧
          seen.offset.le range.offset = true ∧ (rangeEnd d range).le (rangeEnd d seen) = true
      | .nearDuplicate seen => ∃ key, (key, seen) ∈ guard.seen ∧ seen.path = range.path ∧
          isFinite (rangeEnd d range) = true ∧ isFinite (rangeEnd d seen) = true ∧
          nearDuplicateReadRatio.le (overlapRatio d seen.offset (rangeEnd d seen) range.offset
            (rangeEnd d range)) = true
      | _ => True := by
  have hmem : ∀ {path : List Char} {seen : ReadRange}, seen ∈ guard.rangesForPath path →
      ∃ key, (key, seen) ∈ guard.seen ∧ seen.path = path := by
    intro path seen hseen
    rw [ReadGuard.rangesForPath, mem_mergeSort, mem_filter, List.mem_map] at hseen
    obtain ⟨⟨⟨key, seen'⟩, hentry, rfl⟩, hpath⟩ := hseen
    exact ⟨key, hentry, by simpa using hpath⟩
  unfold ReadGuard.checkRead at h
  split at h
  case h_1 => cases h
  case h_2 range hrange =>
    refine ⟨range, hrange, ?_⟩
    split at h
    case isTrue hdup =>
      obtain rfl := some.inj h
      obtain ⟨⟨key, seen⟩, hentry, rfl⟩ := List.mem_map.mp (contains_iff_mem.mp hdup)
      exact ⟨seen, hentry⟩
    case isFalse =>
      split at h
      case h_1 seen hcover =>
        obtain rfl := some.inj h
        obtain ⟨key, hentry, hpath⟩ := hmem (mem_of_find?_eq_some hcover)
        have hfound := find?_some hcover
        rw [Bool.and_eq_true] at hfound
        exact ⟨key, hentry, hpath, hfound⟩
      case h_2 =>
        split at h
        case h_1 seen hnear =>
          obtain rfl := some.inj h
          unfold ReadGuard.nearDuplicate at hnear
          split at hnear
          case isFalse => cases hnear
          case isTrue hfinite =>
            obtain ⟨key, hentry, hpath⟩ := hmem (mem_of_find?_eq_some hnear)
            have hfound := find?_some hnear
            rw [Bool.and_eq_true] at hfound
            exact ⟨key, hentry, hpath, hfinite, hfound⟩
        case h_2 =>
          split at h
          case h_1 hbudget =>
            obtain rfl := some.inj h
            unfold ReadGuard.checkBatchBudget at hbudget
            repeat' split at hbudget
            all_goals first | (obtain rfl := some.inj hbudget; trivial) | cases hbudget
          case h_2 =>
            split at h
            · obtain rfl := some.inj h
              trivial
            · cases h

theorem blocked_shown {s : Reading F} (h : Faithful ws s) {args : ReadArgs} {decision : Decision}
    (hdecision : (s.guard.checkRead ws.doubles ws.limits args mode).1 = some decision)
    (hblocked : decision = .duplicate ∨ ∃ seen, decision = .covered seen) {page : ReadPage}
    (hpage : toolRead (ws.host s.disk) args = .ok page) :
    ∃ f, ws.file args.path = some f ∧ page.lines ⊆ s.delivered f := by
  obtain ⟨-, resolved, f, text, hfile, htext, rfl⟩ := toolRead_host hpage
  obtain ⟨range, hrange, hcases⟩ := checkRead_cases hdecision
  obtain ⟨-, hpath, hoffset, hlimit⟩ := startOf_range hrange
  refine ⟨f, hfile, ?_⟩
  rcases hblocked with rfl | ⟨seen, rfl⟩
  · obtain ⟨seen, hentry⟩ := hcases
    obtain ⟨f', text', hfile', htext', hagain, -⟩ := (h _ _ hentry).shown
    rw [hpath, hfile] at hfile'
    obtain rfl := some.inj hfile'
    obtain rfl := some.inj (htext.symm.trans htext')
    exact hagain args resolved hrange
  · obtain ⟨key, hentry, hsame, hstart, hend⟩ := hcases
    have hkept := h _ _ hentry
    obtain ⟨f', text', hfile', htext', -, a, ha, haoffset, hholds⟩ := hkept.shown
    rw [← hkept.path, hsame, hpath, hfile] at hfile'
    obtain rfl := some.inj hfile'
    obtain rfl := some.inj (htext.symm.trans htext')
    intro n hn
    obtain ⟨han, hle, hlt⟩ := lines_subset ha (by rw [← haoffset, ← hoffset]; exact hstart) hn
    refine hholds n han hle ?_
    unfold requestedEnd at hlt
    rw [Num.lt_min_iff, maxLines_range hrange] at hlt
    refine Num.lt_of_lt_of_le ?_ hend
    unfold rangeEnd
    cases hlim : range.limit with
    | all => rfl
    | lines m =>
      rw [hlim] at hlt
      rw [hoffset]
      exact hlt.2

/-- The lines of a file that a range holds. -/
def rangeLines (d : Doubles) (file : TextFile) (range : ReadRange) : Finset ℕ :=
  (Finset.Icc 1 file.lines.length).filter fun n =>
    range.offset.le (.nat n) = true ∧ (Num.nat n).le (rangeEnd d range) = true

/-- The first range is not longer than the second one. -/
def Shorter (d : Doubles) (range other : ReadRange) : Prop :=
  ∃ a b a' b' : ℚ, range.offset = .fin a ∧ rangeEnd d range = .fin b ∧ other.offset = .fin a' ∧
    rangeEnd d other = .fin b' ∧ b - a ≤ b' - a'

/-- Four fifths of the lines of a range have been delivered. -/
def MostlyDelivered (d : Doubles) (file : TextFile) (delivered : Finset ℕ) (range : ReadRange) :
    Prop :=
  4 * (rangeLines d file range).card ≤ 5 * (rangeLines d file range ∩ delivered).card

/-- The bounds of the ranges are whole, and the one asked for lies in the file or does not start in
front of the other one. -/
def Comparable (d : Doubles) (file : TextFile) (seen range : ReadRange) : Prop :=
  ∃ (c : ℕ) (b e : ℤ), range.offset = .nat c ∧ rangeEnd d seen = .fin b ∧
    rangeEnd d range = .fin e ∧ (e ≤ file.lines.length ∨ seen.offset.le range.offset = true)

theorem five_le_of_ratio {o s : ℕ} (hs : 1 ≤ s) (hle : s ≤ 2 ^ 30)
    (h : nearDuplicateReadRatio.le (d.div (.nat o) (.nat s)) = true) : 4 * s ≤ 5 * o := by
  by_contra hless
  have hpos : (0 : ℚ) < s := by exact_mod_cast hs
  have hbound : (s : ℚ) ≤ 2 ^ 30 := by exact_mod_cast hle
  have hfive : 5 * (o : ℚ) + 1 ≤ 4 * s := by exact_mod_cast (by omega : 5 * o + 1 ≤ 4 * s)
  -- The double in front of the ratio still lies behind the quotient.
  have hquotient : (o : ℚ) / s ≤ (7205759403792793 : ℤ) / 2 ^ 53 := by
    rw [div_le_iff₀ hpos]
    linarith
  have hround := d.mono _ _ hquotient
  rw [d.exact 7205759403792793 53 (by norm_num) (by omega)] at hround
  have hdiv : d.div (.nat o) (.nat s) = d.round (o / s) := by
    simp only [Num.nat, Doubles.div]
    rw [if_neg hpos.ne']
  rw [hdiv] at h
  have hfalse := Num.le_trans h hround
  rw [nearDuplicateReadRatio] at hfalse
  norm_num at hfalse

theorem ratio_zero (x : Num) : nearDuplicateReadRatio.le (d.div (.nat 0) x) = false := by
  have hzero : nearDuplicateReadRatio.le (.fin 0) = false := by decide +kernel
  cases x with
  | nan => rfl
  | negInf => exact hzero
  | posInf => exact hzero
  | fin q =>
    simp only [Num.nat, Doubles.div, Nat.cast_zero, zero_div]
    split
    · rfl
    · rw [show (0 : ℚ) = ((0 : ℤ) : ℚ) by simp, d.round_int (by norm_num)]
      simpa using hzero

theorem overlap_of_ratio {a c : ℕ} {b e : ℤ} (hlonger : e - c ≤ b - a)
    (hshort : e - c ≤ 2 ^ 29) (h : nearDuplicateReadRatio.le
      (overlapRatio d (.nat a) (.fin b) (.nat c) (.fin e)) = true) :
    4 * (e - c + 1) ≤ 5 * (min b e - max (a : ℤ) c + 1) := by
  have hcommon : d.sub ((Num.fin b).min (.fin e)) ((Num.nat a).max (.nat c)) =
      d.round ((min b e - max (a : ℤ) c : ℤ) : ℚ) := by
    simp only [Num.nat, Num.min_fin, Num.max_fin, Doubles.sub, Num.neg, Doubles.add]
    push_cast
    rw [sub_eq_add_neg]
  unfold overlapRatio at h
  simp only [hcommon] at h
  by_cases hneg : min b e - max (a : ℤ) c < 0
  · exfalso
    have hround := d.mono ((min b e - max (a : ℤ) c : ℤ) : ℚ) ((-1 : ℤ) : ℚ)
      (by exact_mod_cast Int.le_sub_one_of_lt hneg)
    rw [d.round_int (m := -1) (by norm_num)] at hround
    have hsum := d.add_mono hround 1
    have hzero : d.add (.fin ((-1 : ℤ) : ℚ)) (.fin 1) = .nat 0 := by
      simp only [Doubles.add]
      rw [show ((-1 : ℤ) : ℚ) + 1 = ((0 : ℤ) : ℚ) by simp, d.round_int (by norm_num)]
      simp [Num.nat]
    rw [hzero, show Num.fin 1 = .nat 1 by simp [Num.nat]] at hsum
    rw [Num.max_of_le hsum, ratio_zero] at h
    cases h
  · obtain ⟨o, ho⟩ : ∃ o : ℕ, min b e - max (a : ℤ) c = o :=
      ⟨_, (Int.toNat_of_nonneg (by omega)).symm⟩
    obtain ⟨l, hl⟩ : ∃ l : ℕ, e - c = l := ⟨(e - c).toNat, by omega⟩
    have hfirst : d.add (d.round ((min b e - max (a : ℤ) c : ℤ) : ℚ)) (.nat 1) = .nat (o + 1) := by
      rw [ho, Int.cast_natCast, d.round_nat (by omega), d.add_nat (by omega)]
    have hlength : d.add (d.sub (.fin e) (.nat c)) (.nat 1) = .nat (l + 1) := by
      have hsub : d.sub (.fin e) (.nat c) = d.round ((e - c : ℤ) : ℚ) := by
        simp only [Num.nat, Doubles.sub, Num.neg, Doubles.add]
        push_cast
        rw [sub_eq_add_neg]
      rw [hsub, hl, Int.cast_natCast, d.round_nat (by omega), d.add_nat (by omega)]
    have hother : (Num.nat (l + 1)).le (d.add (d.sub (.fin b) (.nat a)) (.nat 1)) = true := by
      rw [← hlength]
      refine d.add_mono (d.mono _ _ ?_) _
      have hle : (e : ℚ) - c ≤ b - a := by exact_mod_cast hlonger
      linarith
    rw [hfirst, hlength, Num.min_of_le hother, Num.max_nat, Num.max_nat] at h
    have hfive := five_le_of_ratio (by omega) (by omega) h
    omega

theorem mostlyDelivered_of {text : TextFile} {delivered : Finset ℕ} {range : ReadRange} {c e : ℕ}
    (lo hi : ℕ) (hrange : rangeLines d text range ⊆ Finset.Icc c e)
    (hsome : Finset.Icc lo hi ⊆ rangeLines d text range ∩ delivered)
    (h : 4 * (e + 1 - c) ≤ 5 * (hi + 1 - lo)) : MostlyDelivered d text delivered range := by
  have hle := Finset.card_le_card hrange
  have hge := Finset.card_le_card hsome
  rw [Nat.card_Icc] at hle hge
  unfold MostlyDelivered
  omega

theorem nearDuplicate_delivered {s : Reading F} (h : Faithful ws s) {args : ReadArgs}
    {seen range : ReadRange}
    (hdecision : (s.guard.checkRead ws.doubles ws.limits args mode).1 = some (.nearDuplicate seen))
    (hrange : readRangeOf args = some range) :
    ∃ f text, ws.file args.path = some f ∧ s.disk f = some text ∧
      (Comparable ws.doubles text seen range →
        (Shorter ws.doubles seen range ∧ MostlyDelivered ws.doubles text (s.delivered f) seen) ∨
          (Shorter ws.doubles range seen ∧
            MostlyDelivered ws.doubles text (s.delivered f) range)) := by
  obtain ⟨range', hrange', key, hentry, hsame, -, -, hratio⟩ := checkRead_cases hdecision
  obtain rfl := some.inj (hrange.symm.trans hrange')
  obtain ⟨-, hpath, hoffset, -⟩ := startOf_range hrange
  have hkept := h _ _ hentry
  obtain ⟨f, text, hfile, htext, -, a, ha, hstart, hholds⟩ := hkept.shown
  rw [← hkept.path, hsame, hpath] at hfile
  refine ⟨f, text, hfile, htext, ?_⟩
  rintro ⟨c, b, e, hc, hb, he, hnear⟩
  have hlines := text.lines_length
  have hone : 1 ≤ c := by
    have hle := one_le_startOf args.startLine
    rwa [← hoffset, hc, Num.le_nat] at hle
  have hdelivered : ∀ n : ℕ, a ≤ n → n ≤ text.lines.length → (n : ℤ) ≤ b → n ∈ s.delivered f := by
    intro n hn hle hnb
    refine hholds n hn hle ?_
    rw [hb, Num.nat, Num.lt_fin]
    exact_mod_cast (by omega : ((n - 1 : ℕ) : ℤ) < b)
  have hmem : ∀ (r : ReadRange) (k : ℕ) (q : ℤ), r.offset = .nat k →
      rangeEnd ws.doubles r = .fin q → ∀ n, n ∈ rangeLines ws.doubles text r ↔
        (1 ≤ n ∧ n ≤ text.lines.length) ∧ k ≤ n ∧ (n : ℤ) ≤ q := by
    intro r k q hk hq n
    rw [rangeLines, Finset.mem_filter, Finset.mem_Icc, hk, hq, Num.le_nat, Num.nat, Num.le_fin]
    norm_cast
  by_cases hshort : b - a ≤ e - c
  · refine .inl ⟨⟨a, b, c, e, hstart, hb, hc, he, by exact_mod_cast hshort⟩, ?_⟩
    have hall : rangeLines ws.doubles text seen ⊆ s.delivered f := by
      intro n hn
      obtain ⟨⟨-, hle⟩, han, hnb⟩ := (hmem seen a b hstart hb n).mp hn
      exact hdelivered n han hle hnb
    unfold MostlyDelivered
    rw [Finset.inter_eq_left.mpr hall]
    omega
  · refine .inr ⟨⟨c, e, a, b, hc, he, hstart, hb, ?_⟩, ?_⟩
    · exact_mod_cast (by omega : e - c ≤ b - a)
    · rw [hstart, hb, hc, he] at hratio
      rw [hstart, hc, Num.le_nat] at hnear
      have hoverlap := overlap_of_ratio (d := ws.doubles) (a := a) (c := c) (b := b) (e := e)
        (by omega)
      refine mostlyDelivered_of (c := c) (e := (min e text.lines.length).toNat) (max a c)
        (min (min e text.lines.length) b).toNat (fun n hn => ?_) (fun n hn => ?_) ?_
      · obtain ⟨⟨-, hle⟩, hcn, hne⟩ := (hmem range c e hc he n).mp hn
        rw [Finset.mem_Icc]
        omega
      · rw [Finset.mem_Icc] at hn
        rw [Finset.mem_inter, hmem range c e hc he n]
        have hpos : 1 ≤ n := by omega
        exact ⟨⟨⟨hpos, by omega⟩, by omega, by omega⟩,
          hdelivered n (by omega) (by omega) (by omega)⟩
      · by_cases hempty : min e (text.lines.length : ℤ) < c
        · omega
        by_cases hac : a ≤ c
        · by_cases hbe : min e (text.lines.length : ℤ) ≤ b
          · omega
          · have hfive := hoverlap (by omega) hratio
            omega
        · have hfive := hoverlap (by omega) hratio
          omega

/-- In every run whose reads hand over what they ask for and whose writes and edits are followed by the
guard, a call is blocked as a duplicate or as covered only if all it would show has been delivered,
and as a near duplicate, where its range lies in the file or does not start in front of the earlier
one, only if four fifths of the shorter range have been. -/
theorem readGuard_sound [DecidableEq F] (ws : Workspace F) {disk : F → Option TextFile}
    {s : Reading F} (h : Run.Guarded ws.Step (Allowed ws) (start disk) s) (args : ReadArgs)
    (mode : ReadMode) {range : ReadRange} (hrange : readRangeOf args = some range)
    {decision : Decision}
    (hdecision : (s.guard.checkRead ws.doubles ws.limits args mode).1 = some decision) :
    ((decision = .duplicate ∨ ∃ seen, decision = .covered seen) → ∀ page,
        toolRead (ws.host s.disk) args = .ok page →
          ∃ f, ws.file args.path = some f ∧ page.lines ⊆ s.delivered f) ∧
      ∀ seen, decision = .nearDuplicate seen →
        ∃ f text, ws.file args.path = some f ∧ s.disk f = some text ∧
          (Comparable ws.doubles text seen range →
            (Shorter ws.doubles seen range ∧
                MostlyDelivered ws.doubles text (s.delivered f) seen) ∨
              (Shorter ws.doubles range seen ∧
                MostlyDelivered ws.doubles text (s.delivered f) range)) := by
  have hfaithful := Faithful.run h
  refine ⟨fun hblocked page hpage => blocked_shown hfaithful hdecision hblocked hpage,
    fun seen hseen => ?_⟩
  subst hseen
  exact nearDuplicate_delivered hfaithful hdecision hrange

/-! ### Two spellings of a path -/

/-- A workspace at `/w`. -/
def atRoot : Workspace (List Char) where
  doubles := default
  digits
    | .fin q => q.num.repr.toList
    | _ => []
  resolveToolPath
    | '.' :: '/' :: path => .ok ("/w/".toList ++ path)
    | path => .ok ("/w/".toList ++ path)
  fileOf := id
  limits := ⟨.nat 3, .nat 2, .nat 12000⟩

def oneLine (c : Char) : TextFile := ⟨[c], by simp⟩

def diskOf (file : TextFile) : List Char → Option TextFile := fun f =>
  if f = "/w/a".toList then some file else none

def readAll : ReadArgs := ⟨['a'], .nat 1, .nat 10, false⟩

def readOnce : Reading (List Char) :=
  atRoot.step (start (diskOf (oneLine 'x'))) (.read readAll false none)

def rewritten : Reading (List Char) :=
  atRoot.step readOnce (.modify ['.', '/', 'a'] (oneLine 'y') false)

theorem readGuard_sound_once : ∃ page, toolRead (atRoot.host readOnce.disk) readAll = .ok page ∧
    ∃ f, atRoot.file readAll.path = some f ∧ page.lines ⊆ readOnce.delivered f := by
  have hallowed : Allowed atRoot (start (diskOf (oneLine 'x'))) (.read readAll false none) := by
    refine .inr ⟨rfl, fun f text hfile htext => ⟨1, by decide, ?_⟩⟩
    obtain rfl : "/w/a".toList = f := some.inj hfile
    obtain rfl : oneLine 'x' = text := some.inj htext
    intro resolved
    have hsame : (readPage atRoot.toNumerals resolved (oneLine 'x') readAll).byteTruncated =
      (readPage atRoot.toNumerals [] (oneLine 'x') readAll).byteTruncated := rfl
    rw [hsame]
    decide +kernel
  have hrun : Run.Guarded atRoot.Step (Allowed atRoot) (start (diskOf (oneLine 'x'))) readOnce :=
    .snoc (.refl _) rfl hallowed
  have hrange : readRangeOf readAll = some ⟨['a'], .nat 1, .lines (.nat 10)⟩ := by decide
  have hdecision : (readOnce.guard.checkRead atRoot.doubles atRoot.limits readAll .exact).1 =
      some .duplicate := by decide
  exact ⟨_, rfl, (readGuard_sound atRoot hrun readAll .exact hrange hdecision).1 (.inl rfl) _ rfl⟩

/-- Behind the write the file has another text, and the read is a duplicate. -/
theorem written_blocked : ¬ ∀ (ws : Workspace (List Char)) (disk : List Char → Option TextFile)
    (s : Reading (List Char)), Run.Free ws.Step (start disk) s → ∀ (args : ReadArgs)
    (mode : ReadMode) (decision : Decision),
    (s.guard.checkRead ws.doubles ws.limits args mode).1 = some decision →
    (decision = .duplicate ∨ ∃ seen, decision = .covered seen) → ∀ page,
      toolRead (ws.host s.disk) args = .ok page →
        ∃ f, ws.file args.path = some f ∧ page.lines ⊆ s.delivered f := by
  intro hclaim
  have hread : Run.Free atRoot.Step (start (diskOf (oneLine 'x'))) readOnce :=
    Run.Guarded.snoc (.refl _) rfl trivial
  have hrun : Run.Free atRoot.Step (start (diskOf (oneLine 'x'))) rewritten :=
    hread.snoc rfl trivial
  have hdecision : (rewritten.guard.checkRead atRoot.doubles atRoot.limits readAll .exact).1 =
      some .duplicate := by decide
  obtain ⟨f, hfile, hlines⟩ := hclaim _ _ _ hrun readAll .exact .duplicate hdecision (.inl rfl)
    (readPage atRoot.toNumerals "/w/a".toList (oneLine 'y') readAll) rfl
  obtain rfl : "/w/a".toList = f := some.inj hfile
  have hshown : 1 ∈ (readPage atRoot.toNumerals "/w/a".toList (oneLine 'y') readAll).lines := by
    decide +kernel
  have hmem := hlines hshown
  exact absurd hmem (Finset.notMem_empty 1)

end Workspace

end Ds4Studio.Web
