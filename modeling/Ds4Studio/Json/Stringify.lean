import Ds4Studio.Json.Rfc

/-!
Values of JavaScript and what `JSON.stringify` prints for them, as UTF-8. A string is a
sequence of code points in which a surrogate stands for itself; it is printed as an
escape, like the control characters.
-/

namespace Ds4Studio.Json

open Bytes

abbrev JsString := List (Fin 0x110000)

/-- The code points of a string literal of the source. -/
def js (s : String) : JsString :=
  s.toList.map fun c => ⟨c.toNat, by
    have hvalid := c.valid
    simp only [UInt32.isValidChar, Nat.isValidChar] at hvalid
    simp only [Char.toNat]
    omega⟩

theorem js_injective : Function.Injective js := by
  intro s t h
  have hinj : Function.Injective Char.toNat := fun c d hcd => Char.toNat_inj.mp hcd
  apply String.toList_injective
  apply List.map_injective_iff.mpr hinj
  have hval := congrArg (List.map Fin.val) h
  unfold js at hval
  rwa [List.map_map, List.map_map] at hval

@[simp]
theorem js_inj {s t : String} : js s = js t ↔ s = t := js_injective.eq_iff

/-- A number is given by what it prints; one that is not finite is printed as `null` is. -/
structure Numeral where
  text : Bytes
  printed : Number text

inductive Value where
  | undefined
  | null
  | bool (b : Bool)
  | num (n : Numeral)
  | str (s : JsString)
  | arr (elements : List Value)
  | obj (members : List (JsString × Value))

def isSurrogate (cp : ℕ) : Bool := 0xd800 ≤ cp && cp ≤ 0xdfff

/-- The lower case digits of a code unit. -/
def hexUnit (n : ℕ) : Bytes :=
  [hexDigit (n / 0x1000).toUInt8, hexDigit (n / 0x100 % 0x10).toUInt8,
    hexDigit (n / 0x10 % 0x10).toUInt8, hexDigit (n % 0x10).toUInt8]

def quoteChar (cp : ℕ) : Bytes :=
  if cp = 0x22 then [0x5c, 0x22]
  else if cp = 0x5c then [0x5c, 0x5c]
  else if cp = 0x08 then [0x5c, 0x62]
  else if cp = 0x0c then [0x5c, 0x66]
  else if cp = 0x0a then [0x5c, 0x6e]
  else if cp = 0x0d then [0x5c, 0x72]
  else if cp = 0x09 then [0x5c, 0x74]
  else if cp < 0x20 ∨ isSurrogate cp then 0x5c :: 0x75 :: hexUnit cp
  else utf8Put cp

/-- The encoding of a string; a lone surrogate has none and is replaced. -/
def utf8 (s : JsString) : Bytes :=
  s.flatMap fun cp => utf8Put (if isSurrogate cp.val then 0xfffd else cp.val)

def quoteChars (s : JsString) : Bytes := s.flatMap fun cp => quoteChar cp.val

def quote (s : JsString) : Bytes := 0x22 :: (quoteChars s ++ [0x22])

mutual

/-- `undefined` is printed as an element of an array is. -/
def stringify : Value → Bytes
  | .undefined | .null => str "null"
  | .bool b => if b then str "true" else str "false"
  | .num n => n.text
  | .str s => quote s
  | .arr elements => 0x5b :: (stringifyElements elements ++ [0x5d])
  | .obj members => 0x7b :: (stringifyMembers false members ++ [0x7d])

def stringifyElements : List Value → Bytes
  | [] => []
  | [element] => stringify element
  | element :: rest => stringify element ++ 0x2c :: stringifyElements rest

/-- Members that are `undefined` are left out; `behind`: a member stands in front. -/
def stringifyMembers (behind : Bool) : List (JsString × Value) → Bytes
  | [] => []
  | (_, .undefined) :: rest => stringifyMembers behind rest
  | (key, value) :: rest =>
      (if behind then [0x2c] else []) ++
        (quote key ++ 0x3a :: (stringify value ++ stringifyMembers true rest))

end

end Ds4Studio.Json
