import Ds4Studio.Files.Edit

/-!
The read tool and its continuation. A result shows some lines of a file; where lines are left, the
worker keeps the path and the number of the next line for the tool that continues.
-/

namespace Ds4Studio.Files

open Agent (ToolCall toolArgValue)
open Bytes

/-! ### Arguments -/

def intMax : ℤ := 2 ^ 31 - 1

def agentReadDefaultLines : ℤ := 500

/-- The value of a sum of `int`s that leaves their range, where it wraps around. -/
def wrapInt (n : ℤ) : ℤ := n.bmod (2 ^ 32)

theorem wrapInt_eq_self {n : ℤ} (hpos : 0 ≤ n) (hn : n ≤ intMax) : wrapInt n = n := by
  unfold intMax at hn
  exact Int.bmod_eq_of_le (by omega) (by omega)

def digitsValue (digits : Bytes) : ℕ := digits.foldl (fun n c => 10 * n + (c.toNat - 0x30)) 0

/-- `strtol` in base ten, with what follows the number. -/
def strtol (s : Bytes) : Option (ℤ × Bytes) :=
  let p := skipWs s
  let negative := p.head? = some 0x2d
  let p := if negative ∨ p.head? = some 0x2b then p.drop 1 else p
  let digits := p.takeWhile isDigit
  if digits = [] then none
  else
    let value : ℤ := digitsValue digits
    let value := if negative then -value else value
    some (min (max value (-2 ^ 63)) (2 ^ 63 - 1), p.drop digits.length)

/-- `agent_parse_int_default` -/
def parseIntDefault (s : Option Bytes) (dflt least most : ℤ) : ℤ :=
  match s with
  | none | some [] => dflt
  | some text =>
      match strtol text with
      | none => dflt
      | some (value, rest) =>
          let blank := fun c : UInt8 => c = 0x20 || c = 0x09 || c = 0x0d || c = 0x0a
          if rest.dropWhile blank ≠ [] then dflt else min (max value least) most

theorem parseIntDefault_bounds (s : Option Bytes) {dflt least most : ℤ} (hleast : least ≤ dflt)
    (hmost : dflt ≤ most) :
    least ≤ parseIntDefault s dflt least most ∧ parseIntDefault s dflt least most ≤ most := by
  unfold parseIntDefault
  split
  · exact ⟨hleast, hmost⟩
  · exact ⟨hleast, hmost⟩
  · split
    · exact ⟨hleast, hmost⟩
    · simp only
      split
      · exact ⟨hleast, hmost⟩
      · omega

/-- `agent_parse_bool_default` -/
def parseBoolDefault (s : Option Bytes) (dflt : Bool) : Bool :=
  match s with
  | none | some [] => dflt
  | some text =>
      if text.map toLower = str "true" ∨ text.map toLower = str "yes" ∨ text = str "1" then true
      else if text.map toLower = str "false" ∨ text.map toLower = str "no" ∨ text = str "0" then
        false
      else dflt

/-! ### What is kept for the continuation -/

structure More where
  path : Bytes
  nextLine : ℤ
  bare : Bool
  valid : Bool

/-- `agent_worker_set_more` without a path -/
def More.none : More := ⟨[], 0, false, false⟩

/-- `agent_worker_set_more` with the path of a call -/
def More.ofCall (path : Bytes) (nextLine : ℤ) (bare : Bool) : More :=
  ⟨snprintf pathMax path, nextLine, bare, path ≠ [] && 0 < nextLine⟩

/-- `agent_worker_set_more` with the path that is kept: it is printed into itself, which C leaves
open, and looked at again. -/
def More.ofKept (overlap : Bytes → Bytes) (path : Bytes) (nextLine : ℤ) (bare : Bool) : More :=
  ⟨overlap path, nextLine, bare, overlap path ≠ [] && 0 < nextLine⟩

/-! ### Reading -/

/-- The first line to show, the line behind the last, and how many were asked for. -/
structure Range where
  first : ℤ
  stop : ℤ
  count : ℤ

def rangeOf (len startLine maxLines : ℤ) (whole : Bool) : Range :=
  let first := min (max startLine 1 - 1) len
  let count :=
    if whole then len - first else if maxLines ≤ 0 then agentReadDefaultLines else maxLines
  ⟨first, min (wrapInt (first + count)) len, count⟩

/-- The number of lines that a continuation is offered with. -/
def Range.offered (r : Range) : ℤ := if 0 < r.count then r.count else agentReadDefaultLines

def bareNote (len : ℤ) (r : Range) : Bytes :=
  str "[Read truncated at line " ++ int r.stop ++ str " of " ++ int len ++
    str ". continue_offset=" ++ int (r.stop + 1) ++ str ". Call more with count=" ++
    int r.offered ++ str " to read the next chunk.]\n"

def header (path : Bytes) (len : ℤ) (r : Range) : Bytes :=
  path ++ str ": lines " ++ int (if len = 0 then 0 else r.first + 1) ++ str "-" ++ int r.stop ++
    str " of " ++ int len ++
    if r.stop < len then
      str "; continue_offset=" ++ int (r.stop + 1) ++ str "; call more with count=" ++
        int r.offered ++ str " to read the next chunk\n"
    else str "\n"

/-- The raw text of a range. -/
def bareText (data : Bytes) (spans : List LineSpan) (r : Range) : Bytes :=
  let start :=
    if r.first < spans.length then (spans.getD r.first.toNat ⟨0, 0, 0⟩).start else data.length
  let stop := if r.first < r.stop then (spans.getD (r.stop.toNat - 1) ⟨0, 0, 0⟩).stop else start
  let out := Buf.empty.append (slice data start stop)
  let out := if start < stop ∧ out.text.getLast? ≠ some 0x0a then out.append (str "\n") else out
  if r.stop < spans.length then (out.append (snprintf 160 (bareNote spans.length r))).take
  else out.take

/-- The text of a range with the numbers of its lines. -/
def numberedText (path data : Bytes) (spans : List LineSpan) (r : Range) : Bytes :=
  let out := Buf.empty.append (snprintf (pathMax + 160) (header path spans.length r))
  (appendLines data spans (r.first + 1) r.stop out).take

/-- `agent_read_range`, with what it keeps where lines are left. -/
def readRange (disk : Disk) (keep : Bytes → ℤ → Bool → More) (path : Bytes)
    (startLine maxLines : ℤ) (whole bare : Bool) (more : More) : Bytes × More :=
  if path = [] then (str "Tool error: read requires path\n", more)
  else
    match readFileBytes path (disk path).1 (disk path).2 with
    | .error e => (toolError e, more)
    | .ok data =>
        let spans := splitLines data
        let r := rangeOf spans.length startLine maxLines whole
        (if bare then bareText data spans r else numberedText path data spans r,
          if r.stop < spans.length then keep path (r.stop + 1) bare else More.none)

/-- `agent_tool_read` -/
def toolRead (disk : Disk) (call : ToolCall) (more : More) : Bytes × More :=
  let whole := parseBoolDefault (toolArgValue call (str "whole")) false
  let start := parseIntDefault (toolArgValue call (str "start_line")) 1 1 intMax
  let count :=
    parseIntDefault (toolArgValue call (str "max_lines")) agentReadDefaultLines 1 intMax
  let raw := parseBoolDefault (toolArgValue call (str "raw")) false
  match toolArgValue call (str "path") with
  | none => (str "Tool error: read requires path\n", more)
  | some path => readRange disk .ofCall path start count whole raw more

def noPrevious : Bytes := str "Tool error: no previous output to continue\n"

/-- `agent_tool_more` -/
def toolMore (disk : Disk) (overlap : Bytes → Bytes) (call : ToolCall) (more : More) :
    Bytes × More :=
  let count := parseIntDefault (toolArgValue call (str "count")) agentReadDefaultLines 1 intMax
  if more.valid = false then (noPrevious, more)
  else
    readRange disk (More.ofKept overlap) more.path more.nextLine count false more.bare more

end Ds4Studio.Files
