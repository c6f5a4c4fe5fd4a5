import Ds4Studio.Lib.Bytes

/-!
Little-endian numbers of a fixed width. Writing keeps the low bytes of a number,
so that a written number is read back modulo the width.
-/

namespace Ds4Studio.LittleEndian

/-- The low `width` bytes of a number, lowest first. -/
def put : ℕ → ℕ → Bytes
  | 0, _ => []
  | width + 1, value => UInt8.ofNat value :: put width (value / 256)

/-- The number whose bytes are given, lowest first. -/
def get : Bytes → ℕ
  | [] => 0
  | b :: rest => b.toNat + 256 * get rest

@[simp] theorem put_length (width value : ℕ) : (put width value).length = width := by
  induction width generalizing value with
  | zero => rfl
  | succ width ih => simp [put, ih]

theorem get_put (width value : ℕ) : get (put width value) = value % 256 ^ width := by
  induction width generalizing value with
  | zero => simp [put, get, Nat.mod_one]
  | succ width ih =>
    have hlow : (UInt8.ofNat value).toNat = value % 256 := UInt8.toNat_ofNat'
    rw [put, get, ih, hlow, Nat.pow_succ', Nat.mod_mul]

theorem get_put_of_lt {width value : ℕ} (h : value < 256 ^ width) :
    get (put width value) = value := by
  rw [get_put, Nat.mod_eq_of_lt h]

theorem get_lt (b : Bytes) : get b < 256 ^ b.length := by
  induction b with
  | nil => simp [get]
  | cons c rest ih =>
    have hc : c.toNat < 256 := c.toNat_lt
    rw [get, List.length_cons]
    omega

/-- The bytes a number of the given width stands in, at the front of a text. -/
theorem get_take_put_append {width value : ℕ} (h : value < 256 ^ width) (rest : Bytes) :
    get ((put width value ++ rest).take width) = value := by
  rw [List.take_append_of_le_length (by simp), List.take_of_length_le (by simp), get_put_of_lt h]

end Ds4Studio.LittleEndian
