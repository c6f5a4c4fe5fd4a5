import Mathlib.Algebra.Order.Ring.Nat
import Mathlib.Data.List.Infix
import Mathlib.Data.List.TakeWhile

/-!
Byte texts. A C string is the list of its bytes in front of the terminator, a
pointer into it is the list of bytes from there on, and the end of the list
plays the terminating zero byte.
-/

namespace Ds4Studio

open List

abbrev Bytes := List UInt8

namespace Bytes

/-- The UTF-8 bytes of a string literal of the source. -/
def str (s : String) : Bytes := s.toUTF8.data.toList

theorem str_injective : Function.Injective str := by
  intro s t h
  have hdata : s.toByteArray.data = t.toByteArray.data := by simpa [str] using h
  exact String.toByteArray_inj.mp (ByteArray.ext hdata)

/-- What a reader of a C string sees of a buffer: nothing behind a zero byte. -/
def cstr (b : Bytes) : Bytes := b.takeWhile (· ≠ 0)

theorem forall_of_all {α : Type*} {P : α → Prop} [DecidablePred P] {l : List α}
    (h : l.all (fun c => decide (P c)) = true) : ∀ c ∈ l, P c := by
  simpa using h

theorem length_le_flatMap {α : Type*} {f : α → Bytes} (hf : ∀ a, f a ≠ []) (l : List α) :
    l.length ≤ (l.flatMap f).length := by
  induction l with
  | nil => simp
  | cons a l ih =>
    have ha := length_pos_of_ne_nil (hf a)
    simp only [flatMap_cons, length_append, length_cons]
    omega

/-- `isspace` of the C locale. -/
def isSpace (c : UInt8) : Bool := c = 0x20 || (0x09 ≤ c && c ≤ 0x0d)

def isDigit (c : UInt8) : Bool := 0x30 ≤ c && c ≤ 0x39

def isUpper (c : UInt8) : Bool := 0x41 ≤ c && c ≤ 0x5a

def isLower (c : UInt8) : Bool := 0x61 ≤ c && c ≤ 0x7a

def isAlnum (c : UInt8) : Bool := isDigit c || isUpper c || isLower c

def isXDigit (c : UInt8) : Bool := isDigit c || (0x41 ≤ c && c ≤ 0x46) || (0x61 ≤ c && c ≤ 0x66)

def toLower (c : UInt8) : UInt8 := if isUpper c then c + 0x20 else c

def skipWs (s : Bytes) : Bytes := s.dropWhile isSpace

@[simp] theorem skipWs_nil : skipWs [] = [] := rfl

theorem skipWs_cons (c : UInt8) (s : Bytes) :
    skipWs (c :: s) = if isSpace c then skipWs s else c :: s := by
  simp [skipWs, dropWhile_cons]

variable {c : UInt8}

theorem skipWs_of_not_space (h : isSpace c = false) (s : Bytes) : skipWs (c :: s) = c :: s := by
  simp [skipWs_cons, h]

theorem skipWs_of_space (h : isSpace c = true) (s : Bytes) : skipWs (c :: s) = skipWs s := by
  simp [skipWs_cons, h]

variable (s : Bytes)

theorem skipWs_suffix : skipWs s <:+ s := dropWhile_suffix _

theorem skipWs_length_le : (skipWs s).length ≤ s.length := (skipWs_suffix s).length_le

theorem skipWs_split : ∃ ws, s = ws ++ skipWs s ∧ ∀ c ∈ ws, isSpace c = true :=
  ⟨s.takeWhile isSpace, (takeWhile_append_dropWhile ..).symm,
    fun _ hc => mem_takeWhile_imp hc⟩

theorem head_skipWs {s rest : Bytes} (h : skipWs s = c :: rest) : isSpace c = false := by
  induction s with
  | nil => simp at h
  | cons d s ih =>
    cases hd : isSpace d with
    | true => exact ih (by rwa [skipWs_of_space hd] at h)
    | false =>
      rw [skipWs_of_not_space hd] at h
      obtain ⟨rfl, -⟩ := cons.inj h
      exact hd

@[simp] theorem skipWs_skipWs : skipWs (skipWs s) = skipWs s := by
  cases h : skipWs s with
  | nil => rfl
  | cons c rest => exact skipWs_of_not_space (head_skipWs h) rest

theorem cstr_eq_self {b : Bytes} (h : (0 : UInt8) ∉ b) : cstr b = b := by
  rw [cstr, takeWhile_eq_self_iff]
  intro c hc
  simpa using fun h0 : c = 0 => h (h0 ▸ hc)

theorem zero_not_mem_cstr (b : Bytes) : (0 : UInt8) ∉ cstr b := by
  intro h
  have := mem_takeWhile_imp h
  simp at this

end Bytes

end Ds4Studio
