import Ds4Studio.Agent.DsmlParser
import Ds4Studio.Files.Edit

/-!
The stream of an assistant as it is generated. Bytes of a block of tool calls go to the parser and
to the visualiser, which follows the closing tags of parameters by itself; all other bytes go
through the detector of the block. What is only painted is left out.
-/

namespace Ds4Studio.Agent

open Bytes
open Files (Disk readFileBytes editFindOldSpan snprintf)

/-! ### The visualiser -/

structure Visualizer where
  active : Bool
  paramActive : Bool
  paramName : Bytes
  paramEndTail : Bytes
deriving DecidableEq

namespace Visualizer

def empty : Visualizer := ⟨false, false, [], []⟩

/-- `agent_tool_viz_start` -/
def start : Visualizer := { empty with active := true }

/-- `agent_tool_viz_param_begin` -/
def paramBegin (name : Bytes) (v : Visualizer) : Visualizer :=
  { v with paramName := snprintf 64 name, paramActive := true, paramEndTail := [] }

/-- `agent_tool_viz_param_end` -/
def paramEnd (v : Visualizer) : Visualizer :=
  { v with paramEndTail := [], paramActive := false, paramName := [] }

/-- Behind the byte that has been put into the tail. -/
def matchTail (v : Visualizer) : Visualizer :=
  match parameterCloseTail v.paramEndTail with
  | (true, true) => v.paramEnd
  | (true, false) => v
  | (false, _) => { v with paramEndTail := [] }

/-- `agent_tool_viz_param_value_byte` -/
def paramValueByte (c : UInt8) (v : Visualizer) : Visualizer :=
  if v.paramEndTail ≠ [] ∨ c = 0x3c then
    if v.paramEndTail.length = 64 then
      if c ≠ 0x3c then { v with paramEndTail := [] } else ({ v with paramEndTail := [c] }).matchTail
    else ({ v with paramEndTail := v.paramEndTail ++ [c] }).matchTail
  else v

/-- `agent_tool_viz_finish` -/
def finish (v : Visualizer) : Visualizer :=
  if v.active then { (if v.paramActive then v.paramEnd else v) with active := false } else v

/-- `agent_tool_viz_dump_invalid_dsml` -/
def dumpInvalid (v : Visualizer) : Visualizer :=
  if v.active ∧ v.paramActive = true then v.paramEnd else v

end Visualizer

/-! ### The renderer -/

structure StreamRenderer where
  parser : DsmlParser
  viz : Visualizer
  inThink : Bool
  dsmlActive : Bool
  dsmlIgnored : Bool
  replay : Bool
  pending : Bytes
  dsmlStartTail : Bytes
  plainDsml : Bytes
  thinkDsml : Bytes
  dsmlInThink : Bool
  dsmlInThinkReported : Bool
  postThinkGap : Bool
  toolPreflightError : Bool
  toolPreflightErrorMsg : Bytes
deriving DecidableEq

/-- `agent_preflight_edit_old`, with the error. -/
def preflightEditOld (disk : Disk) (call : ToolCall) : Option Bytes :=
  match toolArgValue call (str "path") with
  | none | some [] => none
  | some (c :: path) =>
      match toolArgValue call (str "old") with
      | none | some [] => some (snprintf 256 (str "edit requires non-empty old text"))
      | some (d :: old) =>
          match readFileBytes (c :: path) (disk (c :: path)).1 (disk (c :: path)).2 with
          | .error e => some e
          | .ok data =>
              match editFindOldSpan data (d :: old) with
              | .error e => some e
              | .ok _ => none

namespace StreamRenderer

def init (replay inThink : Bool) : StreamRenderer :=
  ⟨.empty, .empty, inThink, false, false, replay, [], [], [], [], false, false, false, false, []⟩

/-- `agent_stream_tool_events` -/
def toolEvents (s : StreamRenderer) : StreamRenderer :=
  match s.parser.state, s.parser.paramName with
  | .paramValue, some name =>
      if s.viz.paramActive then s else { s with viz := s.viz.paramBegin name }
  | _, _ => s

/-- `agent_stream_preflight_closed_param` -/
def preflightClosedParam (disk : Disk) (s : StreamRenderer) : StreamRenderer :=
  if s.replay ∨ s.dsmlIgnored ∨ s.toolPreflightError then s
  else if s.viz.paramActive = false ∨ s.viz.paramName ≠ str "old" then s
  else if s.parser.current.name ≠ some (str "edit") then s
  else
    match preflightEditOld disk s.parser.current with
    | none => s
    | some e =>
        { s with
          toolPreflightError := true
          toolPreflightErrorMsg := snprintf 256
            (str "edit old selector failed before new was generated: " ++
              if e ≠ [] then e else str "old text is not a unique match") }

/-- `agent_stream_finish_ignored_dsml` -/
def finishIgnoredDsml (s : StreamRenderer) : StreamRenderer :=
  { s with
    dsmlInThink := true
    dsmlInThinkReported := true
    parser := .empty
    dsmlActive := false
    dsmlIgnored := false }

/-- The visualiser behind a byte that it has seen as one of a parameter. -/
def vizByte (disk : Disk) (c : UInt8) (s : StreamRenderer) : StreamRenderer :=
  let s := { s with viz := s.viz.paramValueByte c }
  if s.parser.state ≠ .paramValue ∧ s.viz.paramActive = true then
    let s := s.preflightClosedParam disk
    { s with viz := s.viz.paramEnd }
  else s

/-- The end of a block, or an error in it. -/
def endDsml (s : StreamRenderer) : StreamRenderer :=
  match s.parser.state with
  | .done =>
      if s.dsmlIgnored then s.finishIgnoredDsml
      else { s with viz := s.viz.finish, dsmlActive := false }
  | .error =>
      if s.dsmlIgnored then s.finishIgnoredDsml
      else { s with viz := s.viz.dumpInvalid.finish, dsmlActive := false }
  | _ => s

/-- The parser takes a byte. -/
def parsed (c : UInt8) (s : StreamRenderer) : StreamRenderer :=
  { s with parser := s.parser.feed c }

/-- The visualiser follows, behind a byte that it has or has not seen as one of a parameter. -/
def projected (disk : Disk) (c : UInt8) (wasParam : Bool) (s : StreamRenderer) : StreamRenderer :=
  if s.dsmlIgnored then s
  else
    let s := s.toolEvents
    if wasParam then s.vizByte disk c else s

/-- `agent_stream_feed_dsml_byte` -/
def feedDsmlByte (disk : Disk) (c : UInt8) (s : StreamRenderer) : StreamRenderer :=
  let wasParam := !s.dsmlIgnored && s.viz.paramActive
  ((s.parsed c).projected disk c wasParam).endDsml

/-- `agent_stream_start_dsml` -/
def startDsml (ignored : Bool) (s : StreamRenderer) : StreamRenderer :=
  let s := { s with
    dsmlActive := true
    dsmlIgnored := ignored
    dsmlInThink := s.dsmlInThink || ignored
    dsmlStartTail := []
    postThinkGap := false
    parser := s.parser.start }
  if ignored then s else toolEvents { s with viz := .start }

/-! ### The detectors -/

/-- `agent_dsml_marker_detector_feed` -/
def markerFeed (tail : Bytes) (c : UInt8) : Bytes × Bool :=
  let tail := (if tail.length = 32 then tail.drop 1 else tail) ++ [c]
  (tail, str "｜DSML｜" <:+ tail || str "|DSML|" <:+ tail || str "<DSML｜" <:+ tail ||
    str "</DSML｜" <:+ tail)

/-- `agent_stream_malformed_dsml` -/
def malformedDsml (s : StreamRenderer) : StreamRenderer :=
  if s.parser.state = .error then s
  else
    { s with
      parser := s.parser.setError (str "DSML markup outside a valid tool_calls block") }

/-- `agent_stream_note_thinking_dsml_byte` -/
def noteThinkingDsmlByte (c : UInt8) (s : StreamRenderer) : StreamRenderer :=
  if s.inThink = false ∨ s.dsmlInThink then s
  else
    let fed := markerFeed s.thinkDsml c
    { s with thinkDsml := fed.1, dsmlInThink := fed.2 }

/-- `agent_stream_note_plain_dsml_byte` -/
def notePlainDsmlByte (c : UInt8) (s : StreamRenderer) : StreamRenderer :=
  if s.parser.state = .error then s
  else if s.dsmlActive ∨ s.inThink ∨ s.dsmlInThink then s
  else
    let fed := markerFeed s.plainDsml c
    let s := { s with plainDsml := fed.1 }
    if fed.2 then s.malformedDsml else s

def closeGap (s : StreamRenderer) : StreamRenderer := { s with postThinkGap := false }

/-- The bytes that are held back as the front of an opener. -/
def hold (tail : Bytes) (s : StreamRenderer) : StreamRenderer := { s with dsmlStartTail := tail }

/-- The bytes that have been held back are written, up to one that is malformed. -/
def notePlain : Bytes → StreamRenderer → StreamRenderer
  | [], s => s
  | c :: rest, s =>
      let s := s.notePlainDsmlByte c
      if s.parser.state = .error then s else notePlain rest s

/-- `agent_stream_flush_start_tail` -/
def flushStartTail (s : StreamRenderer) : StreamRenderer :=
  if s.dsmlStartTail = [] then s
  else (s.closeGap.notePlain s.dsmlStartTail).hold []

/-- The openers of a block, and whether one is an implicit one. -/
def startForms : List (Bytes × Bool) :=
  [(str "<｜DSML｜tool_calls>", false), (str "<DSML｜tool_calls>", false),
    (str "<｜DSML｜invoke", true), (str "<DSML｜invoke", true)]

/-- `agent_stream_dsml_start_match`: the first opener that starts with the text. -/
def dsmlStartMatch (tail : Bytes) : Option (Bytes × Bool) :=
  startForms.find? fun form => tail <+: form.1

/-- `agent_stream_normal_byte` -/
def normalByte (disk : Disk) (c : UInt8) (s : StreamRenderer) : StreamRenderer :=
  if s.parser.state = .error then s
  else
    let s := s.noteThinkingDsmlByte c
    if s.postThinkGap ∧ isBlank c = true then s
    else if s.dsmlStartTail ≠ [] ∨ c = 0x3c then
      let tail := if s.dsmlStartTail.length < 64 then s.dsmlStartTail ++ [c] else s.dsmlStartTail
      match dsmlStartMatch tail with
      | some (form, implicit) =>
          if form = tail then
            let s := s.startDsml s.inThink
            if implicit then (str "<｜DSML｜invoke").foldl (fun s c => s.feedDsmlByte disk c) s else s
          else s.hold tail
      | none =>
          if 1 < tail.length ∧ tail.getLast? = some 0x3c then
            let s := s.closeGap.notePlain tail.dropLast
            s.hold (if s.parser.state = .error then [] else [0x3c])
          else (s.hold tail).flushStartTail
    else s.closeGap.notePlainDsmlByte c

/-! ### The stream -/

def thinkOpen : Bytes := str "<think>"
def thinkClose : Bytes := str "</think>"

/-- One pass of the loop of `agent_stream_text`, with the bytes that are left. -/
def textStep (disk : Disk) (last : Bool) (s : StreamRenderer) (c : UInt8) (rest : Bytes) :
    StreamRenderer × Bytes :=
  let cur := c :: rest
  if s.dsmlActive = false ∧ thinkOpen <+: cur then
    ({ s.flushStartTail.closeGap with inThink := true }, cur.drop thinkOpen.length)
  else if s.dsmlActive = false ∧ thinkClose <+: cur then
    ({ s.flushStartTail with inThink := false, postThinkGap := true }, cur.drop thinkClose.length)
  else if last = false ∧ s.dsmlActive = false ∧ c = 0x3c ∧
      ((cur <+: thinkOpen ∧ cur ≠ thinkOpen) ∨ (cur <+: thinkClose ∧ cur ≠ thinkClose)) then
    (if cur.length < 16 then { s with pending := cur } else s, [])
  else if s.dsmlActive then (s.feedDsmlByte disk c, rest)
  else (s.normalByte disk c, rest)

/-- A block that the text does not end. -/
def finishDsml (s : StreamRenderer) : StreamRenderer :=
  if s.dsmlActive then
    if s.dsmlIgnored then s.finishIgnoredDsml
    else { s with viz := s.viz.finish, dsmlActive := false }
  else s

def reportThinking (s : StreamRenderer) : StreamRenderer :=
  if s.dsmlInThink = true ∧ s.dsmlInThinkReported = false then s.finishIgnoredDsml else s

/-- What follows the loop in the last call. -/
def finishText (s : StreamRenderer) : StreamRenderer :=
  s.flushStartTail.closeGap.finishDsml.reportThinking

end StreamRenderer

/-- The states of a stream that is given its text in any pieces, with what is left of a piece. -/
inductive Streamed (disk : Disk) (replay inThink : Bool) : StreamRenderer → Bytes → Prop
  | init : Streamed disk replay inThink (.init replay inThink) []
  | text {s : StreamRenderer} (h : Streamed disk replay inThink s []) (text : Bytes) :
      Streamed disk replay inThink { s with pending := [] } (s.pending ++ text)
  | step {s : StreamRenderer} {c : UInt8} {rest : Bytes}
      (h : Streamed disk replay inThink s (c :: rest)) (last : Bool) :
      Streamed disk replay inThink (s.textStep disk last c rest).1 (s.textStep disk last c rest).2
  | finish {s : StreamRenderer} (h : Streamed disk replay inThink s []) :
      Streamed disk replay inThink s.finishText []

end Ds4Studio.Agent
