import Ds4Studio.Lib.Run
import Ds4Studio.Web.ReadTool
import Mathlib.Data.Finset.Interval
import Mathlib.Order.Interval.Finset.Nat

/-!
The guard in front of the read tool. It remembers the ranges that were read, by the text of their
path, and blocks a read that is one of them, is covered by one or overlaps one for the most part.
-/

namespace Ds4Studio.Web

/-! ### Ranges -/

inductive ReadLimit where
  | lines (n : Num)
  | all
deriving DecidableEq

/-- A range of a file. The text of its `key` names these three. -/
structure ReadRange where
  path : List Char
  offset : Num
  limit : ReadLimit
deriving DecidableEq

/-- `readRangeOf` -/
def readRangeOf (input : ReadArgs) : Option ReadRange :=
  if input.path = [] then none
  else some ⟨input.path, startOf input.startLine,
    if input.whole then .all else .lines (input.maxLines.orElse (.nat defaultMaxLines))⟩

/-- `rangeEnd` -/
def rangeEnd (d : Doubles) (range : ReadRange) : Num :=
  match range.limit with
  | .all => .posInf
  | .lines n => d.sub (d.add range.offset n) (.nat 1)

/-- `NEAR_DUPLICATE_READ_RATIO`: the double next to 0.8 -/
def nearDuplicateReadRatio : Num := .fin (7205759403792794 / 2 ^ 53)

/-- `overlapRatio` -/
def overlapRatio (d : Doubles) (aStart aEnd bStart bEnd : Num) : Num :=
  let overlap := (Num.nat 0).max
    (d.add (d.sub (aEnd.min bEnd) (aStart.max bStart)) (.nat 1))
  let shortest := (Num.nat 1).max
    ((d.add (d.sub aEnd aStart) (.nat 1)).min (d.add (d.sub bEnd bStart) (.nat 1)))
  d.div overlap shortest

/-- `Number.isFinite` -/
def isFinite : Num → Bool
  | .fin _ => true
  | _ => false

/-! ### The guard -/

/-- `seen` has the remembered range for each range that was asked for. -/
structure ReadGuard where
  seen : List (ReadRange × ReadRange)
  blockedThisTurn : List (List Char × ℕ)
  readCount : ℕ
  docReadCount : ℕ
  rawChars : Num

/-- The limits of a batch of reads. -/
structure BatchLimits where
  maxReadsBeforeSummary : Num
  maxDocReadsBeforeSummary : Num
  maxRawCharsBeforeSummary : Num

inductive ReadMode where
  | exact
  | strict
deriving DecidableEq

/-- Why a read is blocked, with the earlier range where the reason names one. -/
inductive Decision where
  | duplicate
  | covered (earlier : ReadRange)
  | nearDuplicate (earlier : ReadRange)
  | docReadSummaryRequired
  | readBatchSummaryRequired
  | rawDocContextSummaryRequired
  | strict
deriving DecidableEq

namespace ReadGuard

def new : ReadGuard := ⟨[], [], 0, 0, .nat 0⟩

/-- `beginTurn` -/
def beginTurn (guard : ReadGuard) : ReadGuard := { guard with blockedThisTurn := [] }

/-- `markSummaryProduced` -/
def markSummaryProduced (guard : ReadGuard) : ReadGuard :=
  { guard with readCount := 0, docReadCount := 0, rawChars := .nat 0 }

/-- `clearAll` -/
def clearAll (_ : ReadGuard) : ReadGuard := new

/-- `_isDocPath` -/
def isDocPath (path : List Char) : Bool :=
  let lower := path.map Char.toLower
  [".md", ".markdown", ".txt", ".rst", ".adoc"].any (fun ending => ending.toList <:+ lower) ||
    ["doc/", "docs/"].any fun dir => dir.toList <+: lower || ('/' :: dir.toList) <:+: lower

def blockedCount (guard : ReadGuard) (path : List Char) : ℕ :=
  ((guard.blockedThisTurn.find? fun entry => entry.1 = path).map Prod.snd).getD 0

/-- `_bump` -/
def bump (guard : ReadGuard) (path : List Char) : ReadGuard :=
  { guard with
    blockedThisTurn := (path, guard.blockedCount path + 1) ::
      guard.blockedThisTurn.filter fun entry => entry.1 ≠ path }

/-- `_rangesForPath` -/
def rangesForPath (guard : ReadGuard) (path : List Char) : List ReadRange :=
  ((guard.seen.map Prod.snd).filter fun range => range.path = path).mergeSort
    fun a b => a.offset.le b.offset

/-- `_covering` -/
def covering (d : Doubles) (guard : ReadGuard) (range : ReadRange) : Option ReadRange :=
  (guard.rangesForPath range.path).find? fun seen =>
    seen.offset.le range.offset && (rangeEnd d range).le (rangeEnd d seen)

/-- `_nearDuplicate` -/
def nearDuplicate (d : Doubles) (guard : ReadGuard) (range : ReadRange) : Option ReadRange :=
  if isFinite (rangeEnd d range) then
    (guard.rangesForPath range.path).find? fun seen =>
      isFinite (rangeEnd d seen) && nearDuplicateReadRatio.le
        (overlapRatio d seen.offset (rangeEnd d seen) range.offset (rangeEnd d range))
  else none

/-- `_checkBatchBudget` -/
def checkBatchBudget (limits : BatchLimits) (guard : ReadGuard) (range : ReadRange) :
    Option Decision :=
  if isDocPath range.path ∧
      limits.maxDocReadsBeforeSummary.le (.nat guard.docReadCount) = true then
    some .docReadSummaryRequired
  else if limits.maxReadsBeforeSummary.le (.nat guard.readCount) then some .readBatchSummaryRequired
  else if limits.maxRawCharsBeforeSummary.le guard.rawChars then some .rawDocContextSummaryRequired
  else none

/-- `checkRead` -/
def checkRead (d : Doubles) (limits : BatchLimits) (guard : ReadGuard) (input : ReadArgs)
    (mode : ReadMode) : Option Decision × ReadGuard :=
  match readRangeOf input with
  | none => (none, guard)
  | some range =>
      if (guard.seen.map Prod.fst).contains range then
        (some .duplicate, guard.bump range.path)
      else
        match guard.covering d range with
        | some earlier => (some (.covered earlier), guard.bump range.path)
        | none =>
            match guard.nearDuplicate d range with
            | some earlier => (some (.nearDuplicate earlier), guard.bump range.path)
            | none =>
                match guard.checkBatchBudget limits range with
                | some decision => (some decision, guard)
                | none =>
                    if mode = .strict ∧ 0 < guard.blockedCount range.path then
                      (some .strict, guard.bump range.path)
                    else (none, guard)

/-- What is remembered of a range that was read. -/
def remembered (d : Doubles) (range : ReadRange) (nextOffset : Option Num) : ReadRange :=
  match range.limit, nextOffset with
  | .all, some next =>
      if range.offset.lt next then { range with limit := .lines (d.sub next range.offset) }
      else range
  | _, _ => range

/-- `seen.set` -/
def set (seen : List (ReadRange × ReadRange)) (key range : ReadRange) :
    List (ReadRange × ReadRange) :=
  if (seen.map Prod.fst).contains key then
    seen.map fun entry => if entry.1 = key then (key, range) else entry
  else seen ++ [(key, range)]

/-- `rememberRead` -/
def rememberRead (d : Doubles) (guard : ReadGuard) (input : ReadArgs) (nextOffset : Option Num)
    (contentLength : ℕ) : ReadGuard :=
  match readRangeOf input with
  | none => guard
  | some range =>
      let lines := match range.limit with
        | .lines n => n
        | .all => .nat defaultMaxLines
      { guard with
        readCount := guard.readCount + 1
        docReadCount := guard.docReadCount + if isDocPath range.path then 1 else 0
        rawChars := d.add guard.rawChars
          (if 0 < contentLength then .nat contentLength else d.mul lines (.nat 50))
        seen := set guard.seen range (remembered d range nextOffset) }

/-- `invalidatePath` -/
def invalidatePath (guard : ReadGuard) (path : List Char) : ReadGuard :=
  if path = [] then guard
  else { guard with seen := guard.seen.filter fun entry => entry.2.path ≠ path }

end ReadGuard

end Ds4Studio.Web
