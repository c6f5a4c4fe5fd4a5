import Ds4Studio.Agent.Sage
import Ds4Studio.Files.Text
import Ds4Studio.Lib.Search

/-!
The edit tool. The old text selects a region of the file, by itself or by the two texts around a
marker; the region is replaced in memory and the file is written again from the start.
-/

namespace Ds4Studio.Files

open Agent (ToolCall toolArgValue)
open Bytes

/-! ### Anchors -/

/-- `agent_memmem_simple` -/
def memmemSimple (hay needle : Bytes) : Option ℕ := Search.find needle hay

/-- `agent_find_unique` -/
def findUnique (data needle label : Bytes) : Except Bytes ℕ :=
  if needle = [] then .error (snprintf 256 (label ++ str " anchor is empty"))
  else
    match memmemSimple data needle with
    | none => .error (snprintf 256 (label ++ str " anchor not found"))
    | some first =>
        let afterFirst := first + 1
        let second :=
          if afterFirst ≤ data.length then memmemSimple (data.drop afterFirst) needle else none
        if second.isSome then .error (snprintf 256 (label ++ str " anchor is not unique"))
        else .ok first

/-- `agent_find_unique_after` -/
def findUniqueAfter (data : Bytes) (start : ℕ) (needle label : Bytes) : Except Bytes ℕ :=
  if needle = [] then .error (snprintf 256 (label ++ str " anchor is empty"))
  else if data.length < start then
    .error (snprintf 256 (label ++ str " search starts outside file"))
  else
    match memmemSimple (data.drop start) needle with
    | none => .error (snprintf 256 (label ++ str " anchor not found after old head"))
    | some i =>
        let first := start + i
        let afterFirst := first + 1
        let second :=
          if afterFirst ≤ data.length then memmemSimple (data.drop afterFirst) needle else none
        if second.isSome then
          .error (snprintf 256 (label ++ str " anchor is not unique after old head"))
        else .ok first

def marker : Bytes := str "[upto]"

def isBreak (c : UInt8) : Bool := c = 0x0a || c = 0x0d

/-- `agent_span_has_nonspace` -/
def spanHasNonspace (s : Bytes) : Bool := s.any fun c => !isSpace c

structure Span where
  start : ℕ
  length : ℕ
  anchored : Bool

/-- `agent_edit_find_old_span` -/
def editFindOldSpan (data old : Bytes) : Except Bytes Span :=
  match Search.find marker old with
  | none =>
      match findUnique data old (str "old text") with
      | .error e => .error e
      | .ok start => .ok ⟨start, old.length, false⟩
  | some upto =>
      let behind := old.drop (upto + marker.length)
      if (Search.find marker behind).isSome then
        .error (snprintf 256 (str "old text contains more than one [upto] marker"))
      else
        let head := old.take upto
        let tail := behind.dropWhile isBreak
        if spanHasNonspace tail = false then
          .error (snprintf 256 (str "old text after [upto] must include a unique tail anchor"))
        else
          match findUnique data head (str "old head") with
          | .error e => .error e
          | .ok headPos =>
              match findUniqueAfter data (headPos + head.length) tail (str "old tail") with
              | .error e => .error e
              | .ok tailPos => .ok ⟨headPos, tailPos - headPos + tail.length, true⟩

/-! ### The result of an edit -/

/-- `agent_line_for_offset` -/
def lineForOffset (spans : List LineSpan) (offset : ℕ) : ℕ :=
  if spans = [] then 1
  else
    match spans.findIdx? fun sp => offset < sp.stop with
    | some i => i + 1
    | none => spans.length

structure LineEffect where
  startLine : ℤ
  endLine : ℤ
  delta : ℤ

/-- `agent_old_new_line_effect` -/
def oldNewLineEffect (oldData newData : Bytes) (offset replaced : ℕ) : LineEffect :=
  let oldSpans := splitLines oldData
  let newSpans := splitLines newData
  if oldSpans = [] then ⟨0, 0, 0⟩
  else
    let last := if 0 < replaced then offset + replaced - 1 else offset
    let last := if oldData.length ≤ last then oldData.length - 1 else last
    ⟨lineForOffset oldSpans offset, lineForOffset oldSpans last,
      newSpans.length - oldSpans.length⟩

/-- `agent_edit_result_append_line` -/
def appendLine (data : Bytes) (sp : LineSpan) (line : ℤ) (b : Buf) : Buf :=
  ((b.append (int line ++ str " ")).append (slice data sp.start sp.contentEnd)).append (str "\n")

/-- The lines from one number to another. -/
def appendLines (data : Bytes) (spans : List LineSpan) (first last : ℤ) (b : Buf) : Buf :=
  (List.range (last + 1 - first).toNat).foldl (fun b i =>
    appendLine data (spans.getD (first.toNat + i - 1) ⟨0, 0, 0⟩) (first + i) b) b

/-- `agent_edit_result_append_context` -/
def appendContext (path data : Bytes) (anchorStart anchorEnd : ℤ) (b : Buf) : Buf :=
  let spans := splitLines data
  if spans = [] then b
  else
    let len : ℤ := spans.length
    let anchorStart := min (max anchorStart 1) len
    let anchorEnd := min (max anchorEnd anchorStart) len
    let ctxStart := max (anchorStart - 5) 1
    let ctxEnd := min (anchorEnd + 8) len
    let b := b.append (snprintf (pathMax + 160) (str "Current file around edit: " ++ path ++
      str " lines " ++ int ctxStart ++ str "-" ++ int ctxEnd ++ str " of " ++ int len ++ str "\n"))
    let edited := anchorEnd - anchorStart + 1
    if edited ≤ 18 + 18 then appendLines data spans ctxStart ctxEnd b
    else
      let headEnd := anchorStart + 18 - 1
      let tailStart := anchorEnd - 18 + 1
      let b := appendLines data spans ctxStart headEnd b
      let b := b.append (snprintf (pathMax + 160) (str "... " ++ int (tailStart - headEnd - 1) ++
        str " edited lines omitted ...\n"))
      appendLines data spans tailStart ctxEnd b

/-- `%+d` -/
def signed (n : ℤ) : Bytes := if n < 0 then int n else str "+" ++ int n

/-- `agent_edit_result` -/
def editResult (path : Bytes) (effect : LineEffect) (newData kind : Bytes) : Bytes :=
  let b := Buf.empty.append (snprintf (pathMax + 180)
    (str "Edited " ++ path ++ str " using " ++ kind ++ str "\n"))
  if 0 < effect.startLine ∧ effect.startLine ≤ effect.endLine then
    let b := b.append (snprintf (pathMax + 180) (str "Touched old lines " ++
      int effect.startLine ++ str "-" ++ int effect.endLine ++
      str "; current post-edit context follows.\n"))
    let b :=
      if effect.delta ≠ 0 then
        b.append (snprintf (pathMax + 180) (str "Line shift: old lines after " ++
          int effect.endLine ++ str " moved by " ++ signed effect.delta ++ str " (old line " ++
          int (effect.endLine + 1) ++ str " is now line " ++
          int (effect.endLine + 1 + effect.delta) ++
          str "). Re-read before relying on old line numbers there.\n"))
      else b
    let newAnchorEnd := max (effect.endLine + effect.delta) effect.startLine
    (appendContext path newData effect.startLine newAnchorEnd b).take
  else b.take

def toolError (e : Bytes) : Bytes :=
  (((Buf.empty.append (str "Tool error: ")).append e).append (str "\n")).take

/-! ### The tool -/

/-- What a tool answers, and the file it leaves. -/
structure Outcome where
  result : Bytes
  file : Bytes

/-- `agent_apply_file_splice` -/
def applyFileSplice (path data : Bytes) (offset removeLen : ℕ) (insert kind : Bytes)
    (w : WriteWorld) : Outcome :=
  let removeLen := min removeLen (data.length - offset)
  let out := data.take offset ++ insert ++ data.drop (offset + removeLen)
  let written := writeFileBytes path out data w
  match written.2 with
  | some e => ⟨toolError e, written.1⟩
  | none => ⟨editResult path (oldNewLineEffect data out offset removeLen) out kind, written.1⟩

/-- `agent_tool_edit`, on a file with the content that is read. -/
def toolEdit (call : ToolCall) (file : Bytes) (r : ReadWorld) (w : WriteWorld) : Outcome :=
  match toolArgValue call (str "path") with
  | none | some [] => ⟨str "Tool error: edit requires path\n", file⟩
  | some (c :: path) =>
      match toolArgValue call (str "old") with
      | none | some [] => ⟨str "Tool error: edit requires non-empty old text\n", file⟩
      | some (d :: old) =>
          match toolArgValue call (str "new") with
          | none => ⟨str "Tool error: edit requires new text\n", file⟩
          | some new =>
              match readFileBytes (c :: path) file r with
              | .error e => ⟨toolError e, file⟩
              | .ok data =>
                  match editFindOldSpan data (d :: old) with
                  | .error e => ⟨toolError e, file⟩
                  | .ok span =>
                      applyFileSplice (c :: path) data span.start span.length new
                        (if span.anchored then str "anchored old/new replacement"
                          else str "old/new replacement") w

end Ds4Studio.Files
