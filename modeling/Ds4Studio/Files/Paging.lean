import Ds4Studio.Files.Lines
import Ds4Studio.Files.Read
import Ds4Studio.Lib.Run

/-!
Paging through a file. A page shows the lines it announces as long as its text fits the buffer,
and the next page starts behind it as long as the kept path survives.
-/

namespace Ds4Studio.Files

open List

open Agent (ToolCall toolArgValue)
open Bytes

/-! ### Pages -/

def numberedLine (n : ℤ) (l : Line) : Bytes := int n ++ str " " ++ l.content ++ str "\n"

/-- Lines with their numbers, from a number on. -/
def numbered : ℤ → List Line → Bytes
  | _, [] => []
  | n, l :: rest => numberedLine n l ++ numbered (n + 1) rest

/-- Lines as they are in the file, closed by a line feed. -/
def bareLines (lines : List Line) : Bytes :=
  lineBytes lines ++
    if lineBytes lines ≠ [] ∧ (lineBytes lines).getLast? ≠ some 0x0a then str "\n" else []

/-- The page of a range: it announces the lines of the range and shows them. -/
def page (path : Bytes) (lines : List Line) (bare : Bool) (first stop : ℕ) (count : ℤ) : Bytes :=
  if bare then
    bareLines ((lines.take stop).drop first) ++
      if stop < lines.length then bareNote lines.length ⟨first, stop, count⟩ else []
  else
    header path lines.length ⟨first, stop, count⟩ ++
      numbered (first + 1) ((lines.take stop).drop first)

theorem numbered_concat (n : ℤ) (lines : List Line) (l : Line) :
    numbered n (lines ++ [l]) = numbered n lines ++ numberedLine (n + lines.length) l := by
  induction lines generalizing n with
  | nil => simp [numbered]
  | cons m rest ih =>
    rw [cons_append, numbered, ih, numbered, length_cons, append_assoc]
    congr 3
    omega

/-! ### Texts that fit -/

theorem snprintf_eq_self {size : ℕ} {text : Bytes} (h : text.length < size) :
    snprintf size text = text := by
  exact take_of_length_le (by omega)

variable {data : Bytes} {b : Buf}

theorem appendLine_of_fits {sp : LineSpan} {n : ℤ} {l : Line}
    (hcontent : slice data sp.start sp.contentEnd = l.content) (hb : b.truncated = false)
    (hfits : b.text.length + (numberedLine n l).length ≤ bufMax) :
    appendLine data sp n b = ⟨b.text ++ numberedLine n l, false⟩ := by
  unfold numberedLine at hfits ⊢
  simp only [length_append] at hfits
  have hnumber : b.append (int n ++ str " ") = ⟨b.text ++ (int n ++ str " "), false⟩ := by
    apply Buf.append_of_fits hb
    rw [length_append]
    omega
  have hline : Buf.append l.content ⟨b.text ++ (int n ++ str " "), false⟩ =
      ⟨b.text ++ (int n ++ str " ") ++ l.content, false⟩ := by
    apply Buf.append_of_fits rfl
    simp only [length_append]
    omega
  unfold appendLine
  rw [hcontent, hnumber, hline, Buf.append_of_fits rfl]
  · simp
  · simp only [length_append]
    omega

theorem drop_take_succ {lines : List Line} {first count : ℕ} {l : Line}
    (hl : lines[first + count]? = some l) :
    (lines.take (first + (count + 1))).drop first =
      (lines.take (first + count)).drop first ++ [l] := by
  obtain ⟨hlt, rfl⟩ := List.getElem?_eq_some_iff.mp hl
  rw [← Nat.add_assoc, take_succ_eq_append_getElem hlt, drop_append_of_le_length]
  rw [length_take]
  omega

theorem appendLines_of_fits {lines : List Line} (h : LinesOf data lines)
    {first count : ℕ} (hcount : first + count ≤ lines.length) (hb : b.truncated = false)
    (hfits : b.text.length + (numbered (first + 1)
      ((lines.take (first + count)).drop first)).length ≤ bufMax) :
    appendLines data (spansAt 0 lines) (first + 1) (first + count : ℕ) b =
      ⟨b.text ++ numbered (first + 1) ((lines.take (first + count)).drop first), false⟩ := by
  have hrange : (((first + count : ℕ) : ℤ) + 1 - (first + 1)).toNat = count := by omega
  unfold appendLines
  rw [hrange]
  induction count with
  | zero =>
    obtain ⟨text, truncated⟩ := b
    simp_all [numbered]
  | succ count ih =>
    obtain ⟨l, hl⟩ : ∃ l, lines[first + count]? = some l := ⟨_, getElem?_eq_getElem (by omega)⟩
    have hlength : ((lines.take (first + count)).drop first).length = count := by
      rw [length_drop, length_take]
      omega
    rw [drop_take_succ hl, numbered_concat, hlength] at hfits ⊢
    rw [length_append] at hfits
    rw [range_succ, foldl_append, ih (by omega) (by omega) (by omega)]
    simp only [foldl_cons, foldl_nil]
    have hindex : ((first : ℤ) + 1).toNat + count - 1 = first + count := by omega
    rw [hindex, spansAt_getD hl, appendLine_of_fits (l := l)]
    · rw [append_assoc]
    · simpa using slice_content h hl
    · rfl
    · simp only [length_append]
      omega

/-! ### A call that reads -/

theorem numberedText_of_fits {path : Bytes} {lines : List Line} (h : LinesOf data lines)
    {first stop : ℕ} {count : ℤ} (hle : first ≤ stop) (hstop : stop ≤ lines.length)
    (hheader : (header path lines.length ⟨first, stop, count⟩).length < pathMax + 160)
    (hfits : (page path lines false first stop count).length ≤ bufMax) :
    numberedText path data (spansAt 0 lines) ⟨first, stop, count⟩ =
      page path lines false first stop count := by
  obtain ⟨k, rfl⟩ := Nat.exists_eq_add_of_le hle
  unfold page at hfits ⊢
  simp only [Bool.false_eq_true, if_false, length_append] at hfits ⊢
  unfold numberedText
  simp only [length_spansAt]
  have hempty : Buf.empty.text = [] := rfl
  rw [snprintf_eq_self hheader, Buf.append_of_fits rfl (by rw [hempty, length_nil]; omega),
    appendLines_of_fits h hstop rfl (by rw [hempty]; exact hfits)]
  rfl

theorem offset_length {lines : List Line} (h : LinesOf data lines) :
    offset lines lines.length = data.length := by
  unfold offset lineBytes
  rw [take_length, h.flatten]

theorem offset_add {lines : List Line} {i j : ℕ} (hij : i ≤ j) :
    offset lines j = offset lines i + (lineBytes ((lines.take j).drop i)).length := by
  have htake : (lines.take j).take i = lines.take i := by rw [take_take, Nat.min_eq_left hij]
  unfold offset lineBytes
  rw [← length_append, ← flatMap_append, ← htake, take_append_drop]

theorem bareText_bounds {lines : List Line} (h : LinesOf data lines) {first stop : ℕ}
    (hle : first ≤ stop) (hstop : stop ≤ lines.length) :
    (if first < lines.length then ((spansAt 0 lines).getD first ⟨0, 0, 0⟩).start
        else data.length) = offset lines first ∧
      (if first < stop then ((spansAt 0 lines).getD (stop - 1) ⟨0, 0, 0⟩).stop
        else offset lines first) = offset lines stop := by
  constructor
  · split
    case isTrue hlt =>
      rw [spansAt_getD (getElem?_eq_getElem (by omega))]
      exact Nat.zero_add _
    case isFalse hge =>
      obtain rfl : first = lines.length := by omega
      exact (offset_length h).symm
  · split
    case isTrue hlt =>
      have hlast : stop - 1 + 1 = stop := by omega
      rw [spansAt_getD (getElem?_eq_getElem (by omega)), hlast]
      exact Nat.zero_add _
    case isFalse hge =>
      obtain rfl : first = stop := by omega
      rfl

theorem bareText_of_fits {path : Bytes} {lines : List Line} (h : LinesOf data lines)
    {first stop : ℕ} {count : ℤ} (hle : first ≤ stop) (hstop : stop ≤ lines.length)
    (hnote : (bareNote lines.length ⟨first, stop, count⟩).length < 160)
    (hfits : (page path lines true first stop count).length ≤ bufMax) :
    bareText data (spansAt 0 lines) ⟨first, stop, count⟩ =
      page path lines true first stop count := by
  obtain ⟨hfirst, hlast⟩ := bareText_bounds h hle hstop
  unfold page at hfits ⊢
  simp only [if_true, length_append] at hfits ⊢
  unfold bareLines at hfits ⊢
  generalize hbody : lineBytes ((lines.take stop).drop first) = body at hfits ⊢
  have hnonempty : offset lines first < offset lines stop ↔ body ≠ [] := by
    rw [offset_add hle, hbody, ← length_pos_iff]
    omega
  have hbuf : Buf.empty.append body = ⟨body, false⟩ := by
    rw [length_append] at hfits
    refine Buf.append_of_fits rfl ?_
    change 0 + body.length ≤ bufMax
    omega
  unfold bareText
  simp only [length_spansAt, Int.toNat_natCast, hfirst, hlast, slice_lines h hle, hbody, hbuf,
    hnonempty, snprintf_eq_self hnote, Int.ofNat_lt]
  have hclosed : (if body ≠ [] ∧ body.getLast? ≠ some 0x0a then
      Buf.append (str "\n") ⟨body, false⟩ else ⟨body, false⟩) =
      ⟨body ++ if body ≠ [] ∧ body.getLast? ≠ some 0x0a then str "\n" else [], false⟩ := by
    split
    case isTrue hopen =>
      rw [if_pos hopen, length_append] at hfits
      apply Buf.append_of_fits rfl
      change body.length + (str "\n").length ≤ bufMax
      omega
    case isFalse => rw [append_nil]
  rw [hclosed]
  split
  case isTrue hleft =>
    rw [if_pos hleft] at hfits
    rw [Buf.append_of_fits rfl hfits]
    rfl
  case isFalse =>
    rw [append_nil]
    rfl

/-! ### What is announced fits its buffer -/

theorem int_short {n : ℤ} (hpos : 0 ≤ n) (hn : n < 10 ^ 10) : (int n).length ≤ 10 := by
  lift n to ℕ using hpos
  exact int_length_le (by exact_mod_cast hn)

theorem offered_bounds {first stop count : ℤ} (hpos : 0 ≤ count) (hcount : count < 10 ^ 10) :
    0 ≤ (⟨first, stop, count⟩ : Range).offered ∧
      (⟨first, stop, count⟩ : Range).offered < 10 ^ 10 := by
  unfold Range.offered agentReadDefaultLines
  split
  · exact ⟨hpos, hcount⟩
  · decide

section

variable {path : Bytes} {len first stop count : ℕ} (hstop : stop ≤ len) (hlen : len < 2 ^ 31)
  (hfirst : first ≤ len) (hcount : count < 2 ^ 31)
include hstop hlen hcount

theorem bareNote_length : (bareNote len ⟨first, stop, count⟩).length < 160 := by
  have hoffered := @offered_bounds first stop count (by omega) (by omega)
  have hoffered := int_short hoffered.1 hoffered.2
  have hstop' := @int_short stop (by omega) (by omega)
  have hlen' := @int_short len (by omega) (by omega)
  have hnext := @int_short (stop + 1) (by omega) (by omega)
  have h1 : (str "[Read truncated at line ").length = 24 := by decide
  have h2 : (str " of ").length = 4 := by decide
  have h3 : (str ". continue_offset=").length = 18 := by decide
  have h4 : (str ". Call more with count=").length = 23 := by decide
  have h5 : (str " to read the next chunk.]\n").length = 26 := by decide
  unfold bareNote
  simp only [length_append]
  omega

include hfirst in
theorem header_length (hpath : path.length < pathMax) :
    (header path len ⟨first, stop, count⟩).length < pathMax + 160 := by
  have hoffered := @offered_bounds first stop count (by omega) (by omega)
  have hoffered := int_short hoffered.1 hoffered.2
  have hstop' := @int_short stop (by omega) (by omega)
  have hlen' := @int_short len (by omega) (by omega)
  have hnext := @int_short (stop + 1) (by omega) (by omega)
  have hfirst' := @int_short (if (len : ℤ) = 0 then 0 else first + 1) (by split <;> omega)
    (by split <;> omega)
  have h1 : (str ": lines ").length = 8 := by decide
  have h2 : (str " of ").length = 4 := by decide
  have h3 : (str "; continue_offset=").length = 18 := by decide
  have h4 : (str "; call more with count=").length = 23 := by decide
  have h5 : (str " to read the next chunk\n").length = 24 := by decide
  have h6 : (str "-").length = 1 := by decide
  have h7 : (str "\n").length = 1 := by decide
  unfold header
  simp only
  generalize int (if (len : ℤ) = 0 then 0 else first + 1) = number at hfirst' ⊢
  split
  · simp only [length_append]
    omega
  · simp only [length_append]
    omega

end

/-! ### The range of a call -/

theorem rangeOf_eq {len : ℕ} {start maxLines : ℤ} {whole : Bool} (hstart : 1 ≤ start)
    (hmax : 1 ≤ maxLines) {first count : ℕ} (hfirst : first = min (start.toNat - 1) len)
    (hcount : count = if whole then len - first else maxLines.toNat)
    (hsum : (first + count : ℕ) ≤ intMax) :
    rangeOf len start maxLines whole = ⟨first, min (first + count) len, count⟩ := by
  have hfirst' : min (max start 1 - 1) (len : ℤ) = first := by omega
  have hcount' : (if whole then (len : ℤ) - first
      else if maxLines ≤ 0 then agentReadDefaultLines else maxLines) = count := by
    rw [hcount]
    split
    · omega
    · rw [if_neg (by omega)]
      omega
  unfold rangeOf
  simp only [hfirst', hcount']
  rw [wrapInt_eq_self (by omega) (by exact_mod_cast hsum)]

/-! ### One call -/

/-- A file that can be read, with its lines. -/
structure Readable (disk : Disk) (path : Bytes) (lines : List Line) : Prop where
  nonempty : path ≠ []
  short : path.length < pathMax
  read : ∃ file, readFileBytes path (disk path).1 (disk path).2 = .ok file ∧ LinesOf file lines

/-- The page of so many lines from one on. -/
def pageFrom (path : Bytes) (lines : List Line) (bare : Bool) (first count : ℕ) : Bytes :=
  page path lines bare first (min (first + count) lines.length) count

/-- The number behind the last line that was asked for is an `int`, and the page fits the buffer of
a result. -/
structure Fits (path : Bytes) (lines : List Line) (bare : Bool) (first count : ℕ) : Prop where
  sum : first + count ≤ 2 ^ 31 - 1
  text : (pageFrom path lines bare first count).length ≤ bufMax

variable {disk : Disk}

theorem Readable.length_lt {path : Bytes} {lines : List Line} (h : Readable disk path lines) :
    lines.length < 2 ^ 31 - 1 := by
  obtain ⟨file, hread, hlines⟩ := h.read
  obtain ⟨rfl, hfile⟩ := readFileBytes_ok hread
  have hlength := hlines.length_le
  unfold agentFileMaxBytes at hfile
  omega

theorem readRange_page {keep : Bytes → ℤ → Bool → More} {path : Bytes} {lines : List Line}
    (h : Readable disk path lines) {start maxLines : ℤ} {whole bare : Bool} (hstart : 1 ≤ start)
    (hmax : 1 ≤ maxLines) {first count : ℕ} (hfirst : first = min (start.toNat - 1) lines.length)
    (hcount : count = if whole then lines.length - first else maxLines.toNat)
    (hfits : Fits path lines bare first count) (more : More) :
    readRange disk keep path start maxLines whole bare more =
      (pageFrom path lines bare first count,
        if first + count < lines.length then keep path (first + count + 1 : ℕ) bare
        else More.none) := by
  have hlen := h.length_lt
  obtain ⟨hne, hshort, file, hread, hlines⟩ := h
  have hrange : rangeOf lines.length start maxLines whole =
      ⟨first, min (first + count) lines.length, count⟩ := by
    refine rangeOf_eq hstart hmax hfirst hcount ?_
    have hsum := hfits.sum
    unfold intMax
    omega
  have hstop : ((min (first + count) lines.length : ℕ) : ℤ) =
      min ((first : ℤ) + count) lines.length := by omega
  have hsum := hfits.sum
  have htext := hfits.text
  unfold readRange
  rw [if_neg hne, hread]
  simp only [splitLines_eq hlines, length_spansAt, hrange]
  rw [← hstop]
  congr 1
  · split
    case isTrue hbare =>
      subst hbare
      exact bareText_of_fits hlines (by omega) (by omega)
        (bareNote_length (by omega) (by omega) (by omega)) htext
    case isFalse hbare =>
      rw [Bool.not_eq_true] at hbare
      subst hbare
      exact numberedText_of_fits hlines (by omega) (by omega)
        (header_length (by omega) (by omega) (by omega) (by omega) hshort) htext
  · by_cases hleft : first + count < lines.length
    · rw [if_pos (by omega), if_pos hleft]
      congr 1
      omega
    · rw [if_neg (by omega), if_neg hleft]

/-! ### All calls -/

/-- What the worker keeps, and what has been answered. -/
structure Session where
  more : More
  answers : List Bytes

/-- Behind a call of the read tool. -/
def Session.read (disk : Disk) (call : ToolCall) (more : More) : Session :=
  ⟨(toolRead disk call more).2, [(toolRead disk call more).1]⟩

/-- A call of the tool that continues. -/
def Session.next (disk : Disk) (overlap : Bytes → Bytes) (call : ToolCall) (s : Session) : Session :=
  ⟨(toolMore disk overlap call s.more).2, s.answers ++ [(toolMore disk overlap call s.more).1]⟩

inductive MoreStep (disk : Disk) (overlap : Bytes → Bytes) : Session → ToolCall → Session → Prop
  | next (s : Session) (call : ToolCall) : MoreStep disk overlap s call (s.next disk overlap call)

def isRaw (call : ToolCall) : Bool := parseBoolDefault (toolArgValue call (str "raw")) false

def firstOf (lines : List Line) (call : ToolCall) : ℕ :=
  min ((parseIntDefault (toolArgValue call (str "start_line")) 1 1 intMax).toNat - 1) lines.length

def askedOf (lines : List Line) (call : ToolCall) : ℕ :=
  if parseBoolDefault (toolArgValue call (str "whole")) false then
    lines.length - firstOf lines call
  else
    (parseIntDefault (toolArgValue call (str "max_lines")) agentReadDefaultLines 1 intMax).toNat

def countOf (call : ToolCall) : ℕ :=
  (parseIntDefault (toolArgValue call (str "count")) agentReadDefaultLines 1 intMax).toNat

/-- Pages without gap or overlap from a line up to a line; behind the last line there is nothing to
continue. -/
inductive Shown (path : Bytes) (lines : List Line) (bare : Bool) (start asked : ℕ) :
    List Bytes → ℕ → Prop
  | first : Shown path lines bare start asked [pageFrom path lines bare start asked]
      (min (start + asked) lines.length)
  | page {answers : List Bytes} {mid : ℕ} (h : Shown path lines bare start asked answers mid)
      (hleft : mid < lines.length) {count : ℕ} (hcount : 0 < count) :
      Shown path lines bare start asked (answers ++ [pageFrom path lines bare mid count])
        (min (mid + count) lines.length)
  | ended {answers : List Bytes} (h : Shown path lines bare start asked answers lines.length) :
      Shown path lines bare start asked (answers ++ [noPrevious]) lines.length

/-- The answers are the pages up to some line, and there is more exactly while lines are left. -/
def PagedThrough (path : Bytes) (lines : List Line) (bare : Bool) (start asked : ℕ) (s : Session) :
    Prop :=
  ∃ stop, Shown path lines bare start asked s.answers stop ∧ stop ≤ lines.length ∧
    (s.more.valid = true ↔ stop < lines.length)

/-- The page that a call continues with fits, and the kept path survives if lines are left. -/
structure MoreFits (path : Bytes) (lines : List Line) (overlap : Bytes → Bytes) (s : Session)
    (call : ToolCall) : Prop where
  fits : s.more.valid = true →
    Fits path lines s.more.bare (s.more.nextLine.toNat - 1) (countOf call)
  kept : s.more.valid = true → s.more.nextLine.toNat - 1 + countOf call < lines.length →
    overlap path = path

/-- What is kept behind a page that ends at a line. -/
structure Tracked (path : Bytes) (lines : List Line) (bare : Bool) (start asked : ℕ) (s : Session)
    (stop : ℕ) : Prop where
  shown : Shown path lines bare start asked s.answers stop
  bound : stop ≤ lines.length
  left : stop < lines.length → s.more = ⟨path, (stop + 1 : ℕ), bare, true⟩
  ended : stop = lines.length → s.more.valid = false

theorem parse_bounds (s : Option Bytes) {dflt : ℤ} (hdflt : 1 ≤ dflt) (hmax : dflt ≤ intMax) :
    1 ≤ parseIntDefault s dflt 1 intMax :=
  (parseIntDefault_bounds s hdflt hmax).1

theorem tracked_read {path : Bytes} {lines : List Line} (h : Readable disk path lines)
    {call : ToolCall} (hpath : toolArgValue call (str "path") = some path)
    (hfits : Fits path lines (isRaw call) (firstOf lines call) (askedOf lines call)) (more : More) :
    Tracked path lines (isRaw call) (firstOf lines call) (askedOf lines call)
      (Session.read disk call more)
      (min (firstOf lines call + askedOf lines call) lines.length) := by
  have hpage := @readRange_page disk More.ofCall path lines h
    (parseIntDefault (toolArgValue call (str "start_line")) 1 1 intMax)
    (parseIntDefault (toolArgValue call (str "max_lines")) agentReadDefaultLines 1 intMax)
    (parseBoolDefault (toolArgValue call (str "whole")) false) (isRaw call)
    (parse_bounds _ (by decide) (by decide)) (parse_bounds _ (by decide) (by decide))
    (firstOf lines call) (askedOf lines call) rfl rfl hfits more
  have hread : toolRead disk call more =
      (pageFrom path lines (isRaw call) (firstOf lines call) (askedOf lines call),
        if firstOf lines call + askedOf lines call < lines.length then
          More.ofCall path (firstOf lines call + askedOf lines call + 1 : ℕ) (isRaw call)
        else More.none) := by
    unfold toolRead
    simp only [hpath]
    exact hpage
  have hkept : ∀ n : ℕ, More.ofCall path (n + 1 : ℕ) (isRaw call) =
      ⟨path, (n + 1 : ℕ), isRaw call, true⟩ := by
    intro n
    unfold More.ofCall
    rw [snprintf_eq_self h.short]
    simp [h.nonempty]
  unfold Session.read
  rw [hread]
  refine ⟨.first, by omega, fun hleft => ?_, fun hover => ?_⟩
  · have hstop : min (firstOf lines call + askedOf lines call) lines.length =
        firstOf lines call + askedOf lines call := by omega
    rw [if_pos (by omega), hkept, hstop]
  · simp only
    rw [if_neg (by omega)]
    rfl

theorem Tracked.next {overlap : Bytes → Bytes} {path : Bytes} {lines : List Line} {bare : Bool}
    {start asked : ℕ} {s : Session} {stop : ℕ} (h : Readable disk path lines)
    (ht : Tracked path lines bare start asked s stop) {call : ToolCall}
    (hfits : MoreFits path lines overlap s call) :
    ∃ stop', Tracked path lines bare start asked (s.next disk overlap call) stop' := by
  rcases Nat.lt_or_eq_of_le ht.bound with hleft | hover
  · have hmore := ht.left hleft
    have hvalid : s.more.valid = true := by rw [hmore]
    have hfirst : s.more.nextLine.toNat - 1 = stop := by
      rw [hmore]
      simp
    have hpage := hfits.fits hvalid
    have hkept := hfits.kept hvalid
    rw [hfirst] at hpage hkept
    have hbare : s.more.bare = bare := by rw [hmore]
    rw [hbare] at hpage
    have hcount := parse_bounds (toolArgValue call (str "count"))
      (by decide : (1 : ℤ) ≤ agentReadDefaultLines) (by decide)
    have hread := @readRange_page disk (More.ofKept overlap) path lines h (stop + 1 : ℕ)
      (parseIntDefault (toolArgValue call (str "count")) agentReadDefaultLines 1 intMax) false bare
      (by omega) hcount stop (countOf call) (by omega) rfl hpage s.more
    have hnext : toolMore disk overlap call s.more = (pageFrom path lines bare stop (countOf call),
        if stop + countOf call < lines.length then
          More.ofKept overlap path (stop + countOf call + 1 : ℕ) bare else More.none) := by
      rw [← hread]
      simp only [hmore]
      rfl
    have hpos : 0 < countOf call := by
      unfold countOf
      omega
    unfold Session.next
    rw [hnext]
    refine ⟨_, ht.shown.page hleft hpos, by omega, fun hleft' => ?_, fun hover => ?_⟩
    · have hstop : min (stop + countOf call) lines.length = stop + countOf call := by omega
      rw [if_pos (by omega)]
      unfold More.ofKept
      rw [hkept (by omega)]
      simp [h.nonempty]
      omega
    · simp only
      rw [if_neg (by omega)]
      rfl
  · subst hover
    have hnext : toolMore disk overlap call s.more = (noPrevious, s.more) := by
      unfold toolMore
      simp only [ht.ended rfl, if_true]
    unfold Session.next
    rw [hnext]
    exact ⟨_, ht.shown.ended, ht.bound, fun hlt => absurd hlt (Nat.lt_irrefl _), ht.ended⟩

/-- The calls show every line from the first one on, page by page, as long as every page fits and
the kept path survives. -/
theorem paging_complete {disk : Disk} {overlap : Bytes → Bytes} {path : Bytes} {lines : List Line}
    {call : ToolCall} {more : More} {s : Session} (h : Readable disk path lines)
    (hpath : toolArgValue call (str "path") = some path)
    (hfits : Fits path lines (isRaw call) (firstOf lines call) (askedOf lines call))
    (hrun : Run.Guarded (MoreStep disk overlap) (MoreFits path lines overlap)
      (Session.read disk call more) s) :
    PagedThrough path lines (isRaw call) (firstOf lines call) (askedOf lines call) s := by
  obtain ⟨stop, ht⟩ : ∃ stop, Tracked path lines (isRaw call) (firstOf lines call)
      (askedOf lines call) s stop := by
    refine hrun.invariant (I := fun t => ∃ stop, Tracked path lines (isRaw call)
      (firstOf lines call) (askedOf lines call) t stop) ?_ ⟨_, tracked_read h hpath hfits more⟩
    rintro t a t' ⟨stop, ht⟩ ⟨⟩ hguard
    exact ht.next h hguard
  refine ⟨stop, ht.shown, ht.bound, fun hvalid => ?_, fun hleft => ?_⟩
  · by_contra hover
    have hstop := ht.bound
    rw [ht.ended (by omega)] at hvalid
    cases hvalid
  · rw [ht.left hleft]

def twoDisk : Disk := fun _ => (str "a\nb\n", ⟨none, false, none⟩)

def twoLines : List Line := [⟨str "a", [0x0a]⟩, ⟨str "b", [0x0a]⟩]

def readOne : ToolCall := ⟨none, [(str "path", str "f"), (str "max_lines", str "1")]⟩

def moreOne : ToolCall := ⟨none, [(str "count", str "1")]⟩

/-- A file of two lines, read line by line. -/
theorem paging_complete_two : ∃ s, s.answers.length = 3 ∧ s.more.valid = false ∧
    PagedThrough (str "f") twoLines (isRaw readOne) (firstOf twoLines readOne)
      (askedOf twoLines readOne) s := by
  have ha : ∀ c ∈ str "a", isBreak c = false := forall_of_all (by decide)
  have hb : ∀ c ∈ str "b", isBreak c = false := forall_of_all (by decide)
  have hlines : LinesOf (str "a\nb\n") twoLines := .cons ha .feed (.cons hb .feed .nil)
  have hreadable : Readable twoDisk (str "f") twoLines := ⟨by decide, by decide, _, rfl, hlines⟩
  have hfirst : Fits (str "f") twoLines (isRaw readOne) (firstOf twoLines readOne)
      (askedOf twoLines readOne) := ⟨by decide, by decide⟩
  have hsecond : Fits (str "f") twoLines false 1 1 := ⟨by decide, by decide⟩
  have hstart : Run.Guarded (MoreStep twoDisk id) (MoreFits (str "f") twoLines id)
      (Session.read twoDisk readOne More.none) (Session.read twoDisk readOne More.none) :=
    Run.Guarded.refl _
  have hnext := hstart.snoc (MoreStep.next _ moreOne) ⟨fun _ => hsecond, fun _ _ => rfl⟩
  have hend : ((Session.read twoDisk readOne More.none).next twoDisk id moreOne).more.valid =
      false := by decide
  have hlast := hnext.snoc (MoreStep.next _ moreOne)
    ⟨fun hvalid => absurd (hend.symm.trans hvalid) nofun, fun _ _ => rfl⟩
  exact ⟨_, rfl, by decide, paging_complete hreadable rfl hfirst hlast⟩

/-! ### A line that is too long -/

theorem Buf.length_append_le {s : Bytes} (h : b.text.length ≤ bufMax) :
    (b.append s).text.length ≤ bufMax := by
  unfold append
  split
  case isTrue => exact h
  case isFalse =>
    split
    case isTrue =>
      simp only [length_append, length_take]
      split <;> omega
    case isFalse hfits =>
      rw [length_append]
      omega

theorem appendLines_length_le (data : Bytes) (spans : List LineSpan) (first last : ℤ)
    (h : b.text.length ≤ bufMax) : (appendLines data spans first last b).text.length ≤ bufMax := by
  unfold appendLines
  generalize (range (last + 1 - first).toNat) = indices
  induction indices generalizing b with
  | nil => exact h
  | cons i rest ih =>
    exact ih (Buf.length_append_le (Buf.length_append_le (Buf.length_append_le h)))

theorem readRange_length_le (disk : Disk) (keep : Bytes → ℤ → Bool → More) (path : Bytes)
    (startLine maxLines : ℤ) (whole bare : Bool) (more : More) :
    (readRange disk keep path startLine maxLines whole bare more).1.length ≤ bufMax := by
  have hempty : Buf.empty.text.length ≤ bufMax := Nat.zero_le _
  unfold readRange
  split
  case isTrue =>
    exact (by decide : (str "Tool error: read requires path\n").length ≤ bufMax)
  case isFalse =>
    split
    case h_1 =>
      exact Buf.length_append_le (Buf.length_append_le (Buf.length_append_le hempty))
    case h_2 =>
      split
      case isTrue =>
        unfold bareText Buf.take
        simp only
        repeat' split
        all_goals first
          | exact Buf.length_append_le (Buf.length_append_le (Buf.length_append_le hempty))
          | exact Buf.length_append_le (Buf.length_append_le hempty)
          | exact Buf.length_append_le hempty
      case isFalse => exact appendLines_length_le _ _ _ _ (Buf.length_append_le hempty)

theorem Shown.ne_nil {path : Bytes} {lines : List Line} {bare : Bool} {start asked stop : ℕ}
    {answers : List Bytes} (h : Shown path lines bare start asked answers stop) : answers ≠ [] := by
  cases h <;> simp

theorem Shown.singleton {path answer : Bytes} {lines : List Line} {bare : Bool}
    {start asked stop : ℕ} (h : Shown path lines bare start asked [answer] stop) :
    answer = pageFrom path lines bare start asked := by
  generalize hanswers : [answer] = answers at h
  cases h with
  | first => exact (cons.inj hanswers).1
  | page h => exact absurd (append_eq_singleton_iff.mp hanswers.symm) (by simp [h.ne_nil])
  | ended h => exact absurd (append_eq_singleton_iff.mp hanswers.symm) (by simp [h.ne_nil])

/-- A line as long as the buffer is not shown completely. -/
theorem paging_cuts : ¬ ∀ (disk : Disk) (overlap : Bytes → Bytes) (path : Bytes)
    (lines : List Line) (call : ToolCall) (more : More) (s : Session), Readable disk path lines →
      toolArgValue call (str "path") = some path →
      Run.Free (MoreStep disk overlap) (Session.read disk call more) s →
      PagedThrough path lines (isRaw call) (firstOf lines call) (askedOf lines call) s := by
  intro hclaim
  have hcontent : ∀ c ∈ replicate bufMax (0x61 : UInt8), isBreak c = false := by
    intro c hc
    rw [eq_of_mem_replicate hc]
    rfl
  have hlines : LinesOf (replicate bufMax 0x61) [⟨replicate bufMax 0x61, []⟩] :=
    .last (ne_nil_of_length_pos (by rw [length_replicate]; decide)) hcontent
  have hread : readFileBytes (str "f") (replicate bufMax 0x61) ⟨none, false, none⟩ =
      .ok (replicate bufMax 0x61) := by
    have hsmall : ¬ agentFileMaxBytes < bufMax := by decide
    simp [readFileBytes, hsmall]
  have hpaged := hclaim (fun _ => (replicate bufMax 0x61, ⟨none, false, none⟩)) id (str "f")
    [⟨replicate bufMax 0x61, []⟩] ⟨none, [(str "path", str "f")]⟩ More.none _
    ⟨by decide, by decide, _, hread, hlines⟩ rfl (Run.Guarded.refl _)
  obtain ⟨stop, hshown, -, -⟩ := hpaged
  have hanswer := congrArg length hshown.singleton
  have hshort := readRange_length_le
    (fun _ => (replicate bufMax 0x61, ⟨none, false, none⟩)) More.ofCall (str "f") 1 500 false
    false More.none
  have hlong : bufMax < (pageFrom (str "f") [⟨replicate bufMax 0x61, []⟩] false 0 500).length := by
    have hcontent : bufMax < (numberedLine 1 ⟨replicate bufMax 0x61, []⟩).length := by
      have hbreak : (str "\n").length = 1 := by decide
      unfold numberedLine
      simp only [length_append, length_replicate]
      omega
    unfold pageFrom page
    refine Nat.lt_of_lt_of_le hcontent ?_
    simp [numbered]
  exact absurd (hanswer.symm.trans_le hshort) (Nat.not_le.mpr hlong)

end Ds4Studio.Files
