import Ds4Studio.Lib.CodeUnits

/-!
The values that a parser of JSON gives in a language with doubles and 16-bit code units, and what
plain objects have besides their own keys.
-/

namespace Ds4Studio

/-- A parsed value. An object has its entries in the order in which they are enumerated. -/
inductive JsonValue where
  | null
  | bool (b : Bool)
  | num (x : Num)
  | str (s : Utf16)
  | arr (items : List JsonValue)
  | obj (entries : List (Utf16 × JsonValue))

namespace JsonValue

/-- The names that every plain object inherits. -/
def inheritedNames : List Utf16 :=
  ["constructor", "__defineGetter__", "__defineSetter__", "hasOwnProperty", "__lookupGetter__",
    "__lookupSetter__", "isPrototypeOf", "propertyIsEnumerable", "toString", "valueOf",
    "__proto__", "toLocaleString"].map Utf16.ascii

def keys (entries : List (Utf16 × JsonValue)) : List Utf16 := entries.map Prod.fst

/-- `key in value` -/
def has (entries : List (Utf16 × JsonValue)) (key : Utf16) : Bool :=
  (keys entries).contains key || inheritedNames.contains key

/-- `SameValueZero`; an array or an object is the same as itself only, and a parsed one stands
nowhere else. -/
def same : JsonValue → JsonValue → Bool
  | .null, .null => true
  | .bool a, .bool b => a = b
  | .num x, .num y => x = y
  | .str s, .str t => s = t
  | _, _ => false

theorem has_iff {entries : List (Utf16 × JsonValue)} {key : Utf16} :
    has entries key = true ↔ key ∈ keys entries ∨ key ∈ inheritedNames := by
  simp [has]

end JsonValue

end Ds4Studio
