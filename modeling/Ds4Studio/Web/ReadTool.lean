import Ds4Studio.Lib.Doubles
import Ds4Studio.Lib.Splits

/-!
Reading a file by pages. A page ends at the lines that were asked for or at the bytes that one
result may have; the range that is announced is worked out from the last line that fitted.
-/

namespace Ds4Studio.Web

open List

/-! ### The tool -/

/-- `READ_MAX_BYTES` -/
def readMaxBytes : ℕ := 20 * 1024

/-- `DEFAULT_MAX_LINES` -/
def defaultMaxLines : ℕ := 500

/-- The decoded text of a file. A longer one than a string can hold is not read. -/
structure TextFile where
  text : List Char
  short : text.length ≤ 2 ^ 29 - 24

def TextFile.lines (file : TextFile) : List (List Char) := file.text.splitOn '\n'

/-- Arithmetic, and the digits of a number. -/
structure Numerals where
  doubles : Doubles
  digits : Num → List Char

/-- What the tool takes from its surroundings: numbers and the workspace, with the messages of what
it throws. -/
structure Host extends Numerals where
  resolveToolPath : List Char → Except (List Char) (List Char)
  access : List Char → Bool
  readFile : List Char → Except (List Char) TextFile

/-- The arguments, with the values of `Number` and `Boolean` where these are applied to them. -/
structure ReadArgs where
  path : List Char
  startLine : Num
  maxLines : Num
  whole : Bool

/-- `Buffer.byteLength` -/
def byteLength (text : List Char) : ℕ := (text.map Char.utf8Size).sum

/-- A numbered line; past the lines of the file there is none. -/
abbrev Piece := Num × Option (List Char)

/-- `lines[i]` -/
def lineAt (lines : List (List Char)) : Num → Option (List Char)
  | .fin q => if q.den = 1 ∧ 0 ≤ q.num then lines[q.num.toNat]? else none
  | _ => none

def Piece.text (digits : Num → List Char) (piece : Piece) : List Char :=
  digits piece.1 ++ ": ".toList ++ piece.2.getD "undefined".toList

/-- A successful read: what it shows, and `raw`. -/
structure ReadPage where
  path : List Char
  totalLines : ℕ
  startLine : Num
  endLine : Num
  maxLines : Num
  nextOffset : Option Num
  moreLines : Num
  byteTruncated : Bool
  pieces : List Piece

/-- The loop over the lines, with at most as many passes as given: the pieces, whether the bytes
ended it, and the last line that was taken. -/
def readLoop (num : Numerals) (lines : List (List Char)) (endLine : Num) :
    ℕ → Num → ℕ → Num → List Piece × Bool × Num
  | 0, _, _, actualEnd => ([], false, actualEnd)
  | passes + 1, i, bytes, actualEnd =>
      if i.lt endLine then
        let next := num.doubles.add i (.nat 1)
        let piece : Piece := (next, lineAt lines i)
        let pieceBytes := byteLength (piece.text num.digits) + 1
        if readMaxBytes < bytes + pieceBytes then ([], true, actualEnd)
        else
          let rest := readLoop num lines endLine passes next (bytes + pieceBytes) next
          (piece :: rest.1, rest.2)
      else ([], false, actualEnd)

/-- `Math.max(1, Number(args.start_line) || 1)`, from the number -/
def startOf (startLine : Num) : Num := (Num.nat 1).max (startLine.orElse (.nat 1))

/-- `whole ? totalLines : Number(args.max_lines) || DEFAULT_MAX_LINES` -/
def maxLinesOf (args : ReadArgs) (totalLines : ℕ) : Num :=
  if args.whole then .nat totalLines else args.maxLines.orElse (.nat defaultMaxLines)

/-- The page of a file that has been read. -/
def readPage (num : Numerals) (resolved : List Char) (file : TextFile) (args : ReadArgs) :
    ReadPage :=
  let d := num.doubles
  let lines := file.lines
  let totalLines := lines.length
  let startLine := startOf args.startLine
  let maxLines := maxLinesOf args totalLines
  let endLine := (Num.nat totalLines).min (d.sub (d.add startLine maxLines) (.nat 1))
  let first := d.sub startLine (.nat 1)
  let (pieces, truncated, actualEnd) := readLoop num lines endLine (totalLines + 1) first 0 first
  let endLine := if startLine.le actualEnd then actualEnd else startLine
  { path := resolved
    totalLines := totalLines
    startLine := startLine
    endLine := endLine
    maxLines := maxLines
    nextOffset := if endLine.lt (.nat totalLines) then some (d.add endLine (.nat 1)) else none
    moreLines := d.sub (.nat totalLines) endLine
    byteTruncated := truncated
    pieces := pieces }

/-- `toolRead`, as `executeTool` runs it -/
def toolRead (host : Host) (args : ReadArgs) : Except (List Char) ReadPage :=
  let thrown (message : List Char) : List Char := "Tool read error: ".toList ++ message
  if args.path = [] then .error "read: path is required".toList
  else
    match host.resolveToolPath args.path with
    | .error message => .error (thrown message)
    | .ok resolved =>
        if host.access resolved then
          match host.readFile resolved with
          | .error message => .error (thrown message)
          | .ok file => .ok (readPage host.toNumerals resolved file args)
        else .error ("read: file not found: ".toList ++ resolved)

/-- The text of a successful read. Its first line is repeated at the end. -/
def ReadPage.content (digits : Num → List Char) (page : ReadPage) : List Char :=
  let total := digits (.nat page.totalLines)
  let rangeTag := "RANGE: ".toList ++ digits page.startLine ++ "-".toList ++
    digits page.endLine ++ " of ".toList ++ total
  let more :=
    if (Num.nat 0).lt page.moreLines then
      ["... ".toList ++ digits page.moreLines ++ " more lines available (continue_offset=".toList ++
        (page.nextOffset.map digits).getD "null".toList ++ ")".toList]
    else []
  let reason :=
    if page.byteTruncated then
      ["... truncated at ".toList ++ digits (.nat readMaxBytes) ++
        " bytes; request a smaller range to see the rest".toList]
    else []
  let footer := (more ++ reason).flatMap fun line => '\n' :: line
  rangeTag ++ "\n".toList ++ page.path ++ " (".toList ++ total ++ " lines total)\n".toList ++
    "\n".toList.intercalate (page.pieces.map (Piece.text digits)) ++ footer ++ "\n[".toList ++
    rangeTag ++ "]".toList

/-! ### One page -/

theorem TextFile.lines_length (file : TextFile) : file.lines.length ≤ 2 ^ 29 := by
  have hlength := Splits.length_splitOn_le '\n' file.text
  have hshort := file.short
  unfold lines
  omega

/-- The lines with the numbers from `a` on, `n` of them. -/
def numbered (lines : List (List Char)) (a n : ℕ) : List Piece :=
  (range' a n).map fun k => (.nat k, lines[k - 1]?)

variable (lines : List (List Char))

theorem numbered_succ (a n : ℕ) :
    numbered lines a (n + 1) = (.nat a, lines[a - 1]?) :: numbered lines (a + 1) n := rfl

theorem numbered_add (a m n : ℕ) :
    numbered lines a (m + n) = numbered lines a m ++ numbered lines (a + m) n := by
  unfold numbered
  rw [← map_append, ← range'_append_1]

/-- The bytes that a line takes in a result. -/
def pieceBytes (num : Numerals) (lines : List (List Char)) (k : ℕ) : ℕ :=
  byteLength (Piece.text num.digits (.nat k, lines[k - 1]?)) + 1

@[simp]
theorem lineAt_nat (k : ℕ) : lineAt lines (.nat k) = lines[k]? := by simp [lineAt, Num.nat]

/-- The bytes of the lines with the numbers from `a` on, `n` of them. -/
def bytesOf (num : Numerals) (lines : List (List Char)) (a n : ℕ) : ℕ :=
  ((range' a n).map (pieceBytes num lines)).sum

theorem bytesOf_succ (num : Numerals) (lines : List (List Char)) (a n : ℕ) :
    bytesOf num lines a (n + 1) = pieceBytes num lines a + bytesOf num lines (a + 1) n := rfl

theorem pieceBytes_le {num : Numerals} {lines : List (List Char)} {a n k : ℕ} (ha : a ≤ k)
    (hn : k < a + n) : pieceBytes num lines k ≤ bytesOf num lines a n :=
  single_le_sum (fun _ _ => Nat.zero_le _) _
    (mem_map_of_mem (mem_range'_1.mpr ⟨ha, hn⟩))

section

variable {num : Numerals} {lines : List (List Char)} {endLine : Num}

variable (num) in
/-- Where the loop starts at a line, it takes lines from there on, up to the end or to the first one
that does not fit. -/
theorem readLoop_nat (hend : ∀ i : Num, i.lt endLine = true → i.lt (.nat lines.length) = true)
    (hlines : lines.length ≤ 2 ^ 29) {passes k : ℕ} (hpasses : lines.length ≤ k + passes)
    (hk : k ≤ lines.length) (bytes : ℕ) :
    ∃ n truncated, readLoop num lines endLine passes (.nat k) bytes (.nat k) =
        (numbered lines (k + 1) n, truncated, .nat (k + n)) ∧
      k + n ≤ lines.length ∧ (∀ j < n, (Num.nat (k + j)).lt endLine = true) ∧
      (n ≠ 0 → bytes + bytesOf num lines (k + 1) n ≤ readMaxBytes) ∧
      if truncated then (Num.nat (k + n)).lt endLine = true ∧
        readMaxBytes < bytes + bytesOf num lines (k + 1) (n + 1)
      else (Num.nat (k + n)).lt endLine = false := by
  induction passes generalizing k bytes with
  | zero =>
    refine ⟨0, false, rfl, hk, nofun, fun h => absurd rfl h, ?_⟩
    by_contra hlt
    have hless := hend (.nat k) (by simpa using hlt)
    rw [Num.lt_nat] at hless
    omega
  | succ passes ih =>
    by_cases hlt : (Num.nat k).lt endLine = true
    · have hless := hend _ hlt
      rw [Num.lt_nat] at hless
      have hnext : num.doubles.add (.nat k) (.nat 1) = .nat (k + 1) :=
        num.doubles.add_nat (by omega)
      have hpiece : byteLength (Piece.text num.digits (.nat (k + 1), lines[k]?)) + 1 =
          pieceBytes num lines (k + 1) := rfl
      by_cases hbytes : readMaxBytes < bytes + pieceBytes num lines (k + 1)
      · refine ⟨0, true, ?_, hk, nofun, fun h => absurd rfl h, ?_⟩
        · unfold readLoop
          rw [if_pos hlt]
          simp only [hnext, lineAt_nat, hpiece]
          rw [if_pos hbytes]
          rfl
        · rw [if_pos rfl]
          exact ⟨hlt, hbytes⟩
      · obtain ⟨n, truncated, hloop, hn, hall, hfit, hstop⟩ := ih (k := k + 1) (by omega) (by omega)
          (bytes + pieceBytes num lines (k + 1))
        refine ⟨n + 1, truncated, ?_, by omega, fun j hj => ?_, fun _ => ?_, ?_⟩
        · conv_lhs => unfold readLoop
          rw [if_pos hlt]
          simp only [hnext, lineAt_nat, hpiece]
          rw [if_neg hbytes, hloop, numbered_succ, Nat.add_right_comm k 1 n]
          rfl
        · cases j with
          | zero => exact hlt
          | succ j =>
            rw [Nat.add_comm j 1, ← Nat.add_assoc]
            exact hall j (by omega)
        · rw [bytesOf_succ]
          by_cases hzero : n = 0
          · subst hzero
            simp only [bytesOf, range'_zero, map_nil, sum_nil]
            omega
          · have hrest := hfit hzero
            omega
        · rw [bytesOf_succ, ← Nat.add_assoc bytes, ← Nat.add_assoc k n 1, Nat.add_right_comm k n 1]
          exact hstop
    · refine ⟨0, false, ?_, hk, nofun, fun h => absurd rfl h, ?_⟩
      · unfold readLoop
        rw [if_neg hlt]
        rfl
      · simpa using hlt

end

theorem startOf_ne_nan (x : Num) : startOf x ≠ .nan := by
  have hone : Num.nat 1 ≠ .nan := nofun
  exact (Num.ne_nan_of_le (Num.le_max_left hone (Num.orElse_ne_nan x hone))).2

theorem one_le_startOf (x : Num) : (Num.nat 1).le (startOf x) = true :=
  Num.le_max_left nofun (Num.orElse_ne_nan x nofun)

theorem le_startOf {x : Num} {m : ℕ} (hm : 1 ≤ m) (h : (Num.nat m).le x = true) :
    (Num.nat m).le (startOf x) = true := by
  have hnan := (Num.ne_nan_of_le h).2
  have hkept : x.orElse (.nat 1) = x := by
    unfold Num.orElse
    rw [if_neg]
    rintro (rfl | rfl)
    · exact hnan rfl
    · have hzero : m ≤ 0 := by simpa [Num.nat] using h
      omega
  unfold startOf
  rw [hkept]
  exact Num.le_trans h (Num.le_max_right (by simp [Num.nat]) hnan)

theorem startOf_nat {s : ℕ} (hs : 1 ≤ s) : startOf (.nat s) = .nat s := by
  have hkept : (Num.nat s).orElse (.nat 1) = .nat s := by
    unfold Num.orElse
    rw [if_neg]
    rintro (h | h)
    · cases h
    · have hzero : s = 0 := by simpa [Num.nat] using h
      omega
  unfold startOf Num.max
  rw [hkept, if_neg (by simp [Num.nat])]
  by_cases hone : s = 1
  · subst hone
    rw [if_neg (by simp)]
  · rw [if_pos (Num.lt_nat.mpr (by omega))]

namespace ReadPage

/-- The sum of the start and the number of lines asked for leads on. -/
def Reaches (d : Doubles) (page : ReadPage) : Prop :=
  (d.sub page.startLine (.nat 1)).lt (d.sub (d.add page.startLine page.maxLines) (.nat 1)) = true

/-- The range that is announced is the range of lines that is shown. -/
def Reported (file : TextFile) (page : ReadPage) : Prop :=
  ∃ first count, 1 ≤ first ∧ 1 ≤ count ∧ first + count ≤ file.lines.length + 1 ∧
    page.startLine = .nat first ∧ page.endLine = .nat (first + count - 1) ∧
    page.pieces = numbered file.lines first count

end ReadPage

/-- The line that the page ends with, if its bytes do not. -/
def requestedEnd (num : Numerals) (file : TextFile) (args : ReadArgs) : Num :=
  (Num.nat file.lines.length).min (num.doubles.sub (num.doubles.add (startOf args.startLine)
    (maxLinesOf args file.lines.length)) (.nat 1))

section

variable {num : Numerals} {resolved : List Char} {file : TextFile} {args : ReadArgs} {s : ℕ}

variable (num resolved) in
theorem readPage_nat (hs : 1 ≤ s) (hle : s ≤ file.lines.length)
    (hstart : startOf args.startLine = .nat s) :
    ∃ n, s + n ≤ file.lines.length + 1 ∧
      (readPage num resolved file args).pieces = numbered file.lines s n ∧
      (readPage num resolved file args).endLine = .nat (if n = 0 then s else s + n - 1) ∧
      (∀ j < n, (Num.nat (s - 1 + j)).lt (requestedEnd num file args) = true) ∧
      (n ≠ 0 → bytesOf num file.lines s n ≤ readMaxBytes) ∧
      if (readPage num resolved file args).byteTruncated then
        (Num.nat (s - 1 + n)).lt (requestedEnd num file args) = true ∧
          readMaxBytes < bytesOf num file.lines s (n + 1)
      else (Num.nat (s - 1 + n)).lt (requestedEnd num file args) = false := by
  have hlines := file.lines_length
  have hfirst : num.doubles.sub (.nat s) (.nat 1) = .nat (s - 1) :=
    num.doubles.sub_nat (by omega) hs
  have hend : ∀ i : Num, i.lt (requestedEnd num file args) = true →
      i.lt (.nat file.lines.length) = true := fun _ hlt => (Num.lt_min_iff.mp hlt).1
  have hpasses : file.lines.length ≤ s - 1 + (file.lines.length + 1) := by omega
  obtain ⟨n, truncated, hloop, hn, hall, hfit, hstop⟩ :=
    readLoop_nat num hend hlines hpasses (by omega) 0
  rw [Nat.sub_add_cancel hs] at hloop hfit hstop
  simp only [Nat.zero_add] at hfit hstop
  unfold requestedEnd at hloop
  unfold readPage
  simp only [hstart, hfirst] at hloop ⊢
  rw [hloop]
  refine ⟨n, by omega, rfl, ?_, hall, hfit, hstop⟩
  simp only [Num.le_nat]
  by_cases hzero : n = 0
  · rw [if_neg (by omega), if_pos hzero]
  · rw [if_pos (by omega), if_neg hzero]
    congr 1
    omega

theorem reaches_iff (hs : 1 ≤ s) (hle : s ≤ file.lines.length)
    (hstart : startOf args.startLine = .nat s) :
    (readPage num resolved file args).Reaches num.doubles ↔
      (Num.nat (s - 1)).lt (requestedEnd num file args) = true := by
  have hlines := file.lines_length
  have hfirst : num.doubles.sub (.nat s) (.nat 1) = .nat (s - 1) :=
    num.doubles.sub_nat (by omega) hs
  unfold requestedEnd
  rw [Num.lt_min_iff]
  unfold ReadPage.Reaches readPage
  simp only [hstart, hfirst]
  rw [Num.lt_nat]
  exact ⟨fun h => ⟨by omega, h⟩, fun h => h.2⟩

theorem nextOffset_eq (num : Numerals) (resolved : List Char) (file : TextFile) (args : ReadArgs) :
    (readPage num resolved file args).nextOffset =
      if (readPage num resolved file args).endLine.lt (.nat file.lines.length) then
        some (num.doubles.add (readPage num resolved file args).endLine (.nat 1))
      else none := rfl

/-- The announced range is the one that is shown, if the start is a line, some line is asked for and
the first one fits. -/
theorem reported_iff : (readPage num resolved file args).Reported file ↔
    ∃ s, 1 ≤ s ∧ s ≤ file.lines.length ∧ startOf args.startLine = .nat s ∧
      (readPage num resolved file args).Reaches num.doubles ∧
      pieceBytes num file.lines s ≤ readMaxBytes := by
  constructor
  · rintro ⟨s, count, hs, hcount, hle, hstart, -, hpieces⟩
    have hstart' : startOf args.startLine = .nat s := hstart
    have hle' : s ≤ file.lines.length := by omega
    obtain ⟨n, -, hn, -, hall, hfit, -⟩ := readPage_nat num resolved hs hle' hstart'
    have hcountn : count = n := by
      have hlength := congrArg length (hpieces.symm.trans hn)
      simpa [numbered] using hlength
    exact ⟨s, hs, hle', hstart', (reaches_iff hs hle' hstart').mpr (hall 0 (by omega)),
      (pieceBytes_le (Nat.le_refl s) (by omega)).trans (hfit (by omega))⟩
  · rintro ⟨s, hs, hle, hstart, hreaches, hbytes⟩
    obtain ⟨n, hn, hpieces, hend, -, -, hstop⟩ := readPage_nat num resolved hs hle hstart
    have hsome : n ≠ 0 := by
      rintro rfl
      rw [reaches_iff hs hle hstart] at hreaches
      split at hstop
      · have hone : bytesOf num file.lines s (0 + 1) = pieceBytes num file.lines s := by
          simp [bytesOf]
        omega
      · exact absurd (hreaches.symm.trans hstop) nofun
    rw [if_neg hsome] at hend
    exact ⟨s, n, hs, by omega, hn, hstart, hend, hpieces⟩

theorem shown_of_reported (hs : 1 ≤ s) (hle : s ≤ file.lines.length)
    (hstart : startOf args.startLine = .nat s)
    (h : (readPage num resolved file args).Reported file) :
    ∃ n, n ≠ 0 ∧ s + n ≤ file.lines.length + 1 ∧
      (readPage num resolved file args).pieces = numbered file.lines s n ∧
      (readPage num resolved file args).endLine = .nat (s + n - 1) ∧
      ∀ k, s ≤ k → k < s + n → pieceBytes num file.lines k ≤ readMaxBytes := by
  obtain ⟨n, hn, hpieces, hend, -, hfit, -⟩ := readPage_nat num resolved hs hle hstart
  obtain ⟨first, count, -, hcount, -, -, -, hpieces'⟩ := h
  have hsome : n ≠ 0 := by
    have hlength := congrArg length (hpieces'.symm.trans hpieces)
    simp only [numbered, length_map, length_range'] at hlength
    omega
  rw [if_neg hsome] at hend
  exact ⟨n, hsome, hn, hpieces, hend, fun k hk hkn => (pieceBytes_le hk hkn).trans (hfit hsome)⟩

variable (num resolved file args) in
theorem reported_nat (hs : 1 ≤ s) (hle : s ≤ file.lines.length)
    (hstart : startOf args.startLine = .nat s) :
    (readPage num resolved file args).Reported file ↔
      (readPage num resolved file args).Reaches num.doubles ∧
        pieceBytes num file.lines s ≤ readMaxBytes := by
  rw [reported_iff]
  constructor
  · rintro ⟨s', -, -, hstart', h⟩
    obtain rfl := Num.nat_inj.mp (hstart.symm.trans hstart')
    exact h
  · exact fun h => ⟨s, hs, hle, hstart, h⟩

variable (num resolved file args) in
theorem startLine_le_endLine :
    (readPage num resolved file args).startLine.le
      (readPage num resolved file args).endLine = true := by
  unfold readPage
  simp only
  split
  case isTrue h => exact h
  case isFalse => exact Num.le_refl (startOf_ne_nan _)

theorem nextOffset_progress {next : Num} {m : ℕ}
    (hstart : (Num.nat m).le (startOf args.startLine) = true)
    (hnext : (readPage num resolved file args).nextOffset = some next) :
    m < file.lines.length ∧ (Num.nat (m + 1)).le next = true := by
  have hlines := file.lines_length
  rw [nextOffset_eq] at hnext
  split at hnext
  case isFalse => cases hnext
  case isTrue hlt =>
    have hend := Num.le_trans hstart (startLine_le_endLine num resolved file args)
    have hless := Num.lt_of_le_of_lt hend hlt
    rw [Num.lt_nat] at hless
    have hsum := num.doubles.add_mono hend 1
    rw [show Num.fin 1 = .nat 1 by simp [Num.nat], num.doubles.add_nat (by omega)] at hsum
    obtain rfl := Option.some.inj hnext
    exact ⟨hless, hsum⟩

end

/-! ### Page after page -/

/-- The limits of a call. -/
structure Limits where
  maxLines : Num
  whole : Bool

def ReadArgs.page (path : List Char) (start : Num) (limits : Limits) : ReadArgs :=
  ⟨path, start, limits.maxLines, limits.whole⟩

/-- Calls from a start on, each with its own limits, until there is no next offset. -/
inductive Chain (host : Host) (path : List Char) : Num → List Limits → List ReadPage → Prop
  | last {start : Num} {limits : Limits} {page : ReadPage}
      (h : toolRead host (.page path start limits) = .ok page)
      (hnext : page.nextOffset = none) : Chain host path start [limits] [page]
  | more {start next : Num} {limits : Limits} {rest : List Limits} {page : ReadPage}
      {pages : List ReadPage}
      (h : toolRead host (.page path start limits) = .ok page)
      (hnext : page.nextOffset = some next) (hrest : Chain host path next rest pages) :
      Chain host path start (limits :: rest) (page :: pages)

/-- The file that a path leads to. -/
structure Leads (host : Host) (path resolved : List Char) (file : TextFile) : Prop where
  given : path ≠ []
  resolves : host.resolveToolPath path = .ok resolved
  access : host.access resolved = true
  readFile : host.readFile resolved = .ok file

section

variable {host : Host} {path resolved : List Char} {file : TextFile}

theorem Leads.toolRead_eq (h : Leads host path resolved file) {args : ReadArgs}
    (hpath : args.path = path) :
    toolRead host args = .ok (readPage host.toNumerals resolved file args) := by
  unfold toolRead
  rw [hpath, if_neg h.given, h.resolves]
  simp only
  rw [if_pos h.access, h.readFile]

theorem Leads.chain (h : Leads host path resolved file) {m : ℕ} {start : Num} (hm : 1 ≤ m)
    (hstart : (Num.nat m).le (startOf start) = true) (limits : ℕ → Limits) :
    ∃ calls pages, Chain host path start ((range calls).map limits) pages := by
  induction hleft : file.lines.length - m using Nat.strong_induction_on
    generalizing m start limits with
  | h left ih =>
    have hread : toolRead host (.page path start (limits 0)) =
        .ok (readPage host.toNumerals resolved file (.page path start (limits 0))) :=
      h.toolRead_eq rfl
    cases hnext :
        (readPage host.toNumerals resolved file (.page path start (limits 0))).nextOffset with
    | none => exact ⟨1, _, .last hread hnext⟩
    | some next =>
      obtain ⟨hless, hle⟩ := nextOffset_progress (m := m) hstart hnext
      obtain ⟨calls, pages, hrest⟩ := ih (file.lines.length - (m + 1)) (by omega) (by omega)
        (le_startOf (by omega) hle) (fun k => limits (k + 1)) rfl
      refine ⟨calls + 1,
        readPage host.toNumerals resolved file (.page path start (limits 0)) :: pages, ?_⟩
      rw [range_succ_eq_map, map_cons, map_map]
      exact .more hread hnext hrest

theorem Chain.exact (h : Leads host path resolved file) {start : Num} {limits : List Limits}
    {pages : List ReadPage} (hchain : Chain host path start limits pages) {s : ℕ} (hs : 1 ≤ s)
    (hle : s ≤ file.lines.length) (hstart : startOf start = .nat s) :
    ((∀ page ∈ pages, page.Reported file) ↔ (∀ page ∈ pages, page.Reaches host.doubles) ∧
        ∀ k, s ≤ k → k ≤ file.lines.length →
          pieceBytes host.toNumerals file.lines k ≤ readMaxBytes) ∧
      ((∀ page ∈ pages, page.Reported file) →
        pages.flatMap ReadPage.pieces = numbered file.lines s (file.lines.length + 1 - s)) := by
  induction hchain generalizing s with
  | @last start limits page hread hnext =>
    rw [h.toolRead_eq rfl] at hread
    obtain rfl := Except.ok.inj hread
    have hreported := reported_nat host.toNumerals resolved file (.page path start limits) hs hle hstart
    simp only [mem_singleton, forall_eq, flatMap_singleton]
    have hshown : (readPage host.toNumerals resolved file (.page path start limits)).Reported file →
        (readPage host.toNumerals resolved file (.page path start limits)).pieces =
          numbered file.lines s (file.lines.length + 1 - s) ∧
        ∀ k, s ≤ k → k ≤ file.lines.length →
          pieceBytes host.toNumerals file.lines k ≤ readMaxBytes := by
      intro hpage
      obtain ⟨n, hsome, hn, hpieces, hend, hfit⟩ := shown_of_reported hs hle hstart hpage
      rw [nextOffset_eq, hend] at hnext
      split at hnext
      case isTrue => cases hnext
      case isFalse hlast =>
        rw [Num.lt_nat] at hlast
        obtain rfl : n = file.lines.length + 1 - s := by omega
        exact ⟨hpieces, fun k hk hkn => hfit k hk (by omega)⟩
    refine ⟨⟨fun hpage => ?_, fun ⟨hreaches, hfit⟩ => ?_⟩, fun hpage => (hshown hpage).1⟩
    · exact ⟨(hreported.mp hpage).1, (hshown hpage).2⟩
    · exact hreported.mpr ⟨hreaches, hfit s (Nat.le_refl s) hle⟩
  | @more start next limits rest page pages hread hnext hrest ih =>
    rw [h.toolRead_eq rfl] at hread
    obtain rfl := Except.ok.inj hread
    have hreported := reported_nat host.toNumerals resolved file (.page path start limits) hs hle hstart
    have hlines := file.lines_length
    simp only [forall_mem_cons, flatMap_cons]
    have hshown : (readPage host.toNumerals resolved file (.page path start limits)).Reported file →
        ∃ n, s + n ≤ file.lines.length ∧ startOf next = .nat (s + n) ∧
          (readPage host.toNumerals resolved file (.page path start limits)).pieces =
            numbered file.lines s n ∧
          ∀ k, s ≤ k → k < s + n → pieceBytes host.toNumerals file.lines k ≤ readMaxBytes := by
      intro hpage
      obtain ⟨n, hsome, hn, hpieces, hend, hfit⟩ := shown_of_reported hs hle hstart hpage
      rw [nextOffset_eq, hend] at hnext
      split at hnext
      case isFalse => cases hnext
      case isTrue hless =>
        rw [Num.lt_nat] at hless
        rw [host.doubles.add_nat (by omega), show s + n - 1 + 1 = s + n by omega] at hnext
        obtain rfl := Option.some.inj hnext
        exact ⟨n, by omega, startOf_nat (by omega), hpieces, hfit⟩
    constructor
    · constructor
      · rintro ⟨hpage, hpages⟩
        obtain ⟨n, hn, hnextStart, -, hfit⟩ := hshown hpage
        obtain ⟨hreaches, hfit'⟩ := (ih (by omega) hn hnextStart).1.mp hpages
        refine ⟨⟨(hreported.mp hpage).1, hreaches⟩, fun k hk hkn => ?_⟩
        by_cases hless : k < s + n
        · exact hfit k hk hless
        · exact hfit' k (by omega) hkn
      · rintro ⟨⟨hreaches, hreaches'⟩, hfit⟩
        have hpage := hreported.mpr ⟨hreaches, hfit s (Nat.le_refl s) hle⟩
        obtain ⟨n, hn, hnextStart, -, -⟩ := hshown hpage
        exact ⟨hpage, (ih (by omega) hn hnextStart).1.mpr
          ⟨hreaches', fun k hk hkn => hfit k (by omega) hkn⟩⟩
    · rintro ⟨hpage, hpages⟩
      obtain ⟨n, hn, hnextStart, hpieces, -⟩ := hshown hpage
      rw [hpieces, (ih (by omega) hn hnextStart).2 hpages, ← numbered_add]
      congr 1
      omega

theorem Chain.head (h : Leads host path resolved file) {start : Num} {limits : List Limits}
    {pages : List ReadPage} (hchain : Chain host path start limits pages) :
    ∃ first, readPage host.toNumerals resolved file (.page path start first) ∈ pages := by
  cases hchain with
  | @last _ first _ hread | @more _ _ first _ _ _ hread =>
    rw [h.toolRead_eq rfl] at hread
    exact ⟨first, by simp [Except.ok.inj hread]⟩

/-- A start that is a line leads on with one more line, and does not with none. -/
theorem reaches_of_maxLines {page : ReadPage} {d : Doubles} {s : ℕ} (hs : 1 ≤ s)
    (hle : s ≤ 2 ^ 29) (hstart : page.startLine = .nat s) :
    ((Num.nat 1).le page.maxLines = true → page.Reaches d) ∧
      (page.maxLines.le (.nat 0) = true → ¬page.Reaches d) := by
  have hfirst : d.sub (.nat s) (.nat 1) = .nat (s - 1) := d.sub_nat (by omega) hs
  have hsum : ∀ {x y : Num}, x.le y = true →
      (d.sub (d.add (.nat s) x) (.nat 1)).le (d.sub (d.add (.nat s) y) (.nat 1)) = true := by
    intro x y h
    have hmono := d.add_mono (d.add_mono h s) (-1)
    rw [d.add_swap (.nat s) x, d.add_swap (.nat s) y]
    exact hmono
  unfold ReadPage.Reaches
  rw [hstart, hfirst]
  constructor
  · intro h
    have hle' := hsum h
    rw [d.add_nat (by omega), d.sub_nat (by omega) (by omega)] at hle'
    exact Num.lt_of_lt_of_le (Num.lt_nat.mpr (by omega)) hle'
  · intro h
    have hle' := hsum h
    rw [d.add_nat (by omega), Nat.add_zero, hfirst] at hle'
    rw [Num.not_lt_of_le hle']
    nofun

end

/-- Reading from a start until there is no next offset ends. The ranges announced on the way are the
ones shown, and together all lines from the start on, if and only if the start is a line of the
file, every call asks for a line and every line from the start on fits into a result. -/
theorem toolRead_chain {host : Host} {path resolved : List Char} {file : TextFile}
    (h : Leads host path resolved file) (start : Num) (limits : ℕ → Limits) :
    ∃ calls pages, Chain host path start ((range calls).map limits) pages ∧
      (((∀ page ∈ pages, page.Reported file) ∧ ∃ s, startOf start = .nat s ∧
          pages.flatMap ReadPage.pieces = numbered file.lines s (file.lines.length + 1 - s)) ↔
        ∃ s, startOf start = .nat s ∧ s ≤ file.lines.length ∧
          (∀ page ∈ pages, page.Reaches host.doubles) ∧
          ∀ k, s ≤ k → k ≤ file.lines.length →
            pieceBytes host.toNumerals file.lines k ≤ readMaxBytes) := by
  obtain ⟨calls, pages, hchain⟩ := h.chain (Nat.le_refl 1) (one_le_startOf start) limits
  refine ⟨calls, pages, hchain, ?_⟩
  have hone : ∀ {s}, startOf start = .nat s → 1 ≤ s := by
    intro s hs
    have hle := one_le_startOf start
    rwa [hs, Num.le_nat] at hle
  constructor
  · rintro ⟨hreported, s, hs, -⟩
    have hle : s ≤ file.lines.length := by
      obtain ⟨first, hfirst⟩ := hchain.head h
      obtain ⟨s', -, hle, hs', -⟩ := reported_iff.mp (hreported _ hfirst)
      obtain rfl := Num.nat_inj.mp (hs.symm.trans hs')
      exact hle
    obtain ⟨hiff, -⟩ := hchain.exact h (hone hs) hle hs
    exact ⟨s, hs, hle, hiff.mp hreported⟩
  · rintro ⟨s, hs, hle, hreaches⟩
    obtain ⟨hiff, hall⟩ := hchain.exact h (hone hs) hle hs
    exact ⟨hiff.mpr hreaches, s, hs, hall (hiff.mpr hreaches)⟩

/-! ### Two files -/

/-- A workspace with one file. -/
def oneFile (file : TextFile) : Host where
  doubles := default
  digits
    | .fin q => q.num.repr.toList
    | _ => []
  resolveToolPath path := .ok ("/w/".toList ++ path)
  access _ := true
  readFile _ := .ok file

theorem leads_oneFile (file : TextFile) : Leads (oneFile file) ['f'] "/w/f".toList file :=
  ⟨nofun, rfl, rfl, rfl⟩

def twoLines : TextFile := ⟨['a', '\n', 'b'], by decide⟩

theorem toolRead_chain_short : ∃ calls pages, Chain (oneFile twoLines) ['f'] (.nat 1)
    ((range calls).map fun _ => ⟨.nat 1, false⟩) pages ∧
      (((∀ page ∈ pages, page.Reported twoLines) ∧ ∃ s, startOf (.nat 1) = .nat s ∧
          pages.flatMap ReadPage.pieces =
            numbered twoLines.lines s (twoLines.lines.length + 1 - s)) ↔
        ∃ s, startOf (.nat 1) = .nat s ∧ s ≤ twoLines.lines.length ∧
          (∀ page ∈ pages, page.Reaches (oneFile twoLines).doubles) ∧
          ∀ k, s ≤ k → k ≤ twoLines.lines.length →
            pieceBytes (oneFile twoLines).toNumerals twoLines.lines k ≤ readMaxBytes) :=
  toolRead_chain (leads_oneFile twoLines) (.nat 1) fun _ => ⟨.nat 1, false⟩

/-- One line as long as a result may be. -/
def longLine : TextFile where
  text := replicate readMaxBytes 'a'
  short := by
    rw [length_replicate, readMaxBytes]
    omega

/-- The line is announced, and not shown. -/
theorem announced_unshown : ¬ ∀ (host : Host) (path resolved : List Char) (file : TextFile),
    Leads host path resolved file → ∀ (start : Num) (limits : ℕ → Limits), ∃ calls pages,
      Chain host path start ((range calls).map limits) pages ∧
      (∀ page ∈ pages, page.Reported file) ∧ ∃ s, startOf start = .nat s ∧
        pages.flatMap ReadPage.pieces = numbered file.lines s (file.lines.length + 1 - s) := by
  intro hclaim
  have hleads := leads_oneFile longLine
  obtain ⟨calls, pages, hchain, hreported, -⟩ :=
    hclaim _ _ _ _ hleads (.nat 1) fun _ => ⟨.nat 1, false⟩
  obtain ⟨first, hfirst⟩ := hchain.head hleads
  obtain ⟨s, -, -, hs, -, hfit⟩ := reported_iff.mp (hreported _ hfirst)
  obtain rfl := Num.nat_inj.mp ((startOf_nat (Nat.le_refl 1)).symm.trans hs)
  have hlines : longLine.lines = [longLine.text] := splitOn_eq_singleton (by simp [longLine])
  have hbytes : readMaxBytes ≤ byteLength longLine.text := by
    simp [byteLength, longLine, sum_replicate, Char.utf8Size]
  rw [hlines] at hfit
  simp only [pieceBytes, Piece.text, byteLength, Nat.sub_self, getElem?_cons_zero,
    Option.getD_some, map_append, sum_append] at hfit hbytes
  omega

end Ds4Studio.Web
