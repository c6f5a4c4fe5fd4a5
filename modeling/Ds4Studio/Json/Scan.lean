import Ds4Studio.Lib.Bytes
import Mathlib.Data.Nat.Find

/-!
The request parser's JSON scanner. It reads the fields the server uses and
skips everything else, so most of it only moves a pointer; here such a function
returns the text behind what it read. Nesting is counted down from the
source's ceiling, and a loop carries the number of bytes it may still meet.
-/

namespace Ds4Studio.Json

open Bytes

def jsonLit (lit s : Bytes) : Option Bytes := if lit <+: s then some (s.drop lit.length) else none

def jsonHex (c : UInt8) : Option ℕ :=
  if isDigit c then some (c.toNat - 0x30)
  else if 0x61 ≤ c && c ≤ 0x66 then some (10 + (c.toNat - 0x61))
  else if 0x41 ≤ c && c ≤ 0x46 then some (10 + (c.toNat - 0x41))
  else none

def utf8Put (cp : ℕ) : Bytes :=
  if cp ≤ 0x7f then [cp.toUInt8]
  else if cp ≤ 0x7ff then [(0xc0 ||| (cp >>> 6)).toUInt8, (0x80 ||| (cp &&& 0x3f)).toUInt8]
  else if cp ≤ 0xffff then
    [(0xe0 ||| (cp >>> 12)).toUInt8, (0x80 ||| ((cp >>> 6) &&& 0x3f)).toUInt8,
      (0x80 ||| (cp &&& 0x3f)).toUInt8]
  else
    [(0xf0 ||| (cp >>> 18)).toUInt8, (0x80 ||| ((cp >>> 12) &&& 0x3f)).toUInt8,
      (0x80 ||| ((cp >>> 6) &&& 0x3f)).toUInt8, (0x80 ||| (cp &&& 0x3f)).toUInt8]

/-- The four digits behind a backslash and a `u`. -/
def jsonU16 : Bytes → Option (ℕ × Bytes)
  | b :: u :: h₀ :: h₁ :: h₂ :: h₃ :: rest =>
      if b = 0x5c ∧ u = 0x75 then
        match jsonHex h₀, jsonHex h₁, jsonHex h₂, jsonHex h₃ with
        | some d₀, some d₁, some d₂, some d₃ =>
            some (((d₀ * 16 + d₁) * 16 + d₂) * 16 + d₃, rest)
        | _, _, _, _ => none
      else none
  | _ => none

/-- The one-letter escapes of `json_string`. -/
def jsonShortEscape (c : UInt8) : Option UInt8 :=
  if c = 0x22 then some 0x22
  else if c = 0x5c then some 0x5c
  else if c = 0x2f then some 0x2f
  else if c = 0x62 then some 0x08
  else if c = 0x66 then some 0x0c
  else if c = 0x6e then some 0x0a
  else if c = 0x72 then some 0x0d
  else if c = 0x74 then some 0x09
  else none

/-- One turn of the loop of `json_string` at a byte that is not the closing
quote: the bytes appended and the text behind what was read. A second escape
behind a high surrogate is read even when it is no low surrogate. -/
def jsonStringUnit (c : UInt8) (rest : Bytes) : Option (Bytes × Bytes) :=
  if c = 0x5c then
    match rest with
    | [] => none
    | e :: rest' =>
      if e = 0x75 then
        match jsonU16 (c :: rest) with
        | none => none
        | some (cp, behind) =>
          if 0xd800 ≤ cp ∧ cp ≤ 0xdbff then
            match jsonU16 behind with
            | none => some (utf8Put cp, behind)
            | some (lo, behind') =>
              if 0xdc00 ≤ lo ∧ lo ≤ 0xdfff then
                some (utf8Put (0x10000 + (cp - 0xd800) * 1024 + (lo - 0xdc00)), behind')
              else some (utf8Put cp, behind')
          else some (utf8Put cp, behind)
      else (jsonShortEscape e).map fun b => ([b], rest')
  else some ([c], rest)

def jsonStringLoop : ℕ → Bytes → Option (Bytes × Bytes)
  | 0, _ => none
  | _ + 1, [] => none
  | fuel + 1, c :: rest =>
      if c = 0x22 then some ([], rest)
      else
        match jsonStringUnit c rest with
        | none => none
        | some (out, behind) =>
          (jsonStringLoop fuel behind).map fun r => (out ++ r.1, r.2)

/-- The decoded string, as the C string its buffer holds, and the text behind. -/
def jsonString (s : Bytes) : Option (Bytes × Bytes) :=
  match skipWs s with
  | [] => none
  | c :: rest =>
      if c = 0x22 then (jsonStringLoop (rest.length + 1) rest).map fun r => (cstr r.1, r.2)
      else none

/-! `strtod` reads the longest initial part that has the expected form. -/

def expForm (marks : Bytes) : Bytes → Bool
  | [] => true
  | m :: s =>
      m ∈ marks &&
        match s with
        | [] => false
        | c :: t =>
          if c = 0x2b || c = 0x2d then t ≠ [] && t.all isDigit
          else (c :: t).all isDigit

/-- Digits with at most one point and at least one digit, then an exponent. -/
def mantissaForm (digit : UInt8 → Bool) (marks : Bytes) (s : Bytes) : Bool :=
  let whole := s.takeWhile digit
  match s.dropWhile digit with
  | [] => whole ≠ []
  | c :: t =>
    if c = 0x2e then
      (whole ≠ [] || (t.takeWhile digit) ≠ []) && expForm marks (t.dropWhile digit)
    else whole ≠ [] && expForm marks (c :: t)

def infForm (s : Bytes) : Bool := s.map toLower = str "inf" || s.map toLower = str "infinity"

def nanForm (s : Bytes) : Bool :=
  (s.take 3).map toLower = str "nan" &&
    match s.drop 3 with
    | [] => true
    | c :: t => c = 0x28 && t.getLast? = some 0x29 && t.dropLast.all fun d => isAlnum d || d = 0x5f

def hexForm : Bytes → Bool
  | z :: x :: s => z = 0x30 && (x = 0x78 || x = 0x58) && mantissaForm isXDigit [0x70, 0x50] s
  | _ => false

def unsignedForm (s : Bytes) : Bool :=
  infForm s || nanForm s || hexForm s || mantissaForm isDigit [0x65, 0x45] s

def numberForm : Bytes → Bool
  | [] => false
  | c :: s => if c = 0x2b || c = 0x2d then unsignedForm s else unsignedForm (c :: s)

/-- The text behind the number at the front, if there is one. -/
def strtod (s : Bytes) : Option Bytes :=
  match Nat.findGreatest (fun n => numberForm ((skipWs s).take n) = true) (skipWs s).length with
  | 0 => none
  | n + 1 => some ((skipWs s).drop (n + 1))

def jsonNumber (s : Bytes) : Option Bytes := strtod (skipWs s)

/-- The element loop of `json_skip_array_depth`. -/
def jsonSkipElements (value : Bytes → Option Bytes) : ℕ → Bytes → Option Bytes
  | 0, _ => none
  | fuel + 1, s =>
      match value s with
      | none => none
      | some rest =>
        match skipWs rest with
        | [] => none
        | c :: t =>
          if c = 0x5d then some t
          else if c = 0x2c then jsonSkipElements value fuel t
          else none

/-- The member loop of `json_skip_object_depth`. -/
def jsonSkipMembers (value : Bytes → Option Bytes) : ℕ → Bytes → Option Bytes
  | 0, _ => none
  | fuel + 1, s =>
      match jsonString s with
      | none => none
      | some (_, rest) =>
        match skipWs rest with
        | [] => none
        | colon :: afterColon =>
          if colon = 0x3a then
            match value afterColon with
            | none => none
            | some rest =>
              match skipWs rest with
              | [] => none
              | c :: t =>
                if c = 0x7d then some t
                else if c = 0x2c then jsonSkipMembers value fuel t
                else none
          else none

/-- `json_skip_value_depth` with `nest` levels left below `JSON_MAX_NESTING`. -/
def jsonSkipValueNest : ℕ → Bytes → Option Bytes
  | nest, s =>
    match skipWs s with
    | [] => none
    | c :: t =>
      if c = 0x22 then (jsonString (c :: t)).map Prod.snd
      else if c = 0x7b then
        match nest with
        | 0 => none
        | nest + 1 =>
          match skipWs t with
          | [] => none
          | d :: u =>
            if d = 0x7d then some u
            else jsonSkipMembers (jsonSkipValueNest nest) ((d :: u).length + 1) (d :: u)
      else if c = 0x5b then
        match nest with
        | 0 => none
        | nest + 1 =>
          match skipWs t with
          | [] => none
          | d :: u =>
            if d = 0x5d then some u
            else jsonSkipElements (jsonSkipValueNest nest) ((d :: u).length + 1) (d :: u)
      else
        match jsonLit (str "true") (c :: t), jsonLit (str "false") (c :: t),
            jsonLit (str "null") (c :: t) with
        | some rest, _, _ => some rest
        | none, some rest, _ => some rest
        | none, none, some rest => some rest
        | none, none, none => jsonNumber (c :: t)

def jsonMaxNesting : ℕ := 256

def jsonSkipValue (s : Bytes) : Option Bytes := jsonSkipValueNest jsonMaxNesting s

/-- The text of the value in front and the text behind it. -/
def jsonRawValue (s : Bytes) : Option (Bytes × Bytes) :=
  (jsonSkipValue s).map fun rest =>
    ((skipWs s).take ((skipWs s).length - rest.length), rest)

/-- The copying loop of `json_minify_raw_value`. -/
def minifyLoop (inString escape : Bool) : Bytes → Bytes
  | [] => []
  | c :: s =>
      if inString then
        c :: (if escape then minifyLoop true false s
          else if c = 0x5c then minifyLoop true true s
          else if c = 0x22 then minifyLoop false false s
          else minifyLoop true false s)
      else if c = 0x22 then c :: minifyLoop true escape s
      else if isSpace c then minifyLoop false escape s
      else c :: minifyLoop false escape s

/-- White space outside strings is dropped; text that is no value is kept. -/
def jsonMinifyRawValue (json : Bytes) : Bytes :=
  match jsonSkipValue json with
  | none => json
  | some rest =>
    minifyLoop false false ((skipWs json).take ((skipWs json).length - rest.length))

end Ds4Studio.Json
