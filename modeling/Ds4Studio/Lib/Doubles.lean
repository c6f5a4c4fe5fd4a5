import Mathlib.Tactic.Linarith
import Mathlib.Tactic.Positivity
import Mathlib.Tactic.Ring

/-!
Numbers of a language that has doubles only. A finite one is the rational that it stands for. The
operations are exact but for the rounding of their result, of which no more is used than that it is
monotone and leaves the numbers with at most 53 bits as they are.
-/

namespace Ds4Studio

inductive Num where
  | nan
  | negInf
  | fin (q : ℚ)
  | posInf
deriving DecidableEq

namespace Num

def nat (n : ℕ) : Num := .fin n

def le : Num → Num → Bool
  | .nan, _ | _, .nan => false
  | .negInf, _ | _, .posInf => true
  | .fin p, .fin q => p ≤ q
  | _, _ => false

def lt : Num → Num → Bool
  | .nan, _ | _, .nan => false
  | .fin p, .fin q => p < q
  | .negInf, .negInf | .posInf, _ | _, .negInf => false
  | _, _ => true

def neg : Num → Num
  | .nan => .nan
  | .negInf => .posInf
  | .fin q => .fin (-q)
  | .posInf => .negInf

/-- `Math.min` -/
def min (x y : Num) : Num := if x = .nan ∨ y = .nan then .nan else if y.lt x then y else x

/-- `Math.max` -/
def max (x y : Num) : Num := if x = .nan ∨ y = .nan then .nan else if x.lt y then y else x

/-- `x || y` -/
def orElse (x y : Num) : Num := if x = .nan ∨ x = .fin 0 then y else x

/-! ### The order -/

@[simp]
theorem le_fin {p q : ℚ} : (Num.fin p).le (.fin q) = true ↔ p ≤ q := by simp [le]

@[simp]
theorem lt_fin {p q : ℚ} : (Num.fin p).lt (.fin q) = true ↔ p < q := by simp [lt]

@[simp]
theorem le_nat {m n : ℕ} : (nat m).le (nat n) = true ↔ m ≤ n := by simp [nat]

@[simp]
theorem lt_nat {m n : ℕ} : (nat m).lt (nat n) = true ↔ m < n := by simp [nat]

theorem nat_inj {m n : ℕ} : nat m = nat n ↔ m = n := by simp [nat]

theorem le_trans {x y z : Num} (h : x.le y = true) (h' : y.le z = true) : x.le z = true := by
  cases x <;> cases y <;> cases z <;> simp_all [le]
  exact h.trans h'

theorem lt_of_lt_of_le {x y z : Num} (h : x.lt y = true) (h' : y.le z = true) : x.lt z = true := by
  cases x <;> cases y <;> cases z <;> simp_all [le, lt]
  exact h.trans_le h'

theorem lt_of_le_of_lt {x y z : Num} (h : x.le y = true) (h' : y.lt z = true) : x.lt z = true := by
  cases x <;> cases y <;> cases z <;> simp_all [le, lt]
  exact h.trans_lt h'

variable {x y : Num}

theorem le_of_lt (h : x.lt y = true) : x.le y = true := by
  cases x <;> cases y <;> simp_all [le, lt]
  exact h.le

theorem not_lt_of_le (h : x.le y = true) : y.lt x = false := by
  cases x <;> cases y <;> simp_all [le, lt]

theorem le_of_not_lt (hx : x ≠ .nan) (hy : y ≠ .nan) (h : x.lt y = false) : y.le x = true := by
  cases x <;> cases y <;> simp_all [le, lt]

theorem ne_nan_of_le (h : x.le y = true) : x ≠ .nan ∧ y ≠ .nan := by
  cases x <;> cases y <;> simp_all [le]

theorem lt_nan (x : Num) : x.lt .nan = false := by cases x <;> rfl

theorem lt_min_iff {x y z : Num} : x.lt (min y z) = true ↔ x.lt y = true ∧ x.lt z = true := by
  unfold min
  by_cases hnan : y = .nan ∨ z = .nan
  · rw [if_pos hnan]
    rcases hnan with rfl | rfl <;> simp [lt_nan]
  · obtain ⟨hy, hz⟩ := not_or.mp hnan
    rw [if_neg hnan]
    cases hlt : z.lt y with
    | true =>
      exact ⟨fun h => ⟨lt_of_lt_of_le h (le_of_lt hlt), h⟩, fun h => h.2⟩
    | false =>
      exact ⟨fun h => ⟨h, lt_of_lt_of_le h (le_of_not_lt hz hy hlt)⟩, fun h => h.1⟩

theorem le_refl {x : Num} (h : x ≠ .nan) : x.le x = true := by cases x <;> simp_all [le]

theorem le_max_left (hx : x ≠ .nan) (hy : y ≠ .nan) : x.le (max x y) = true := by
  unfold max
  rw [if_neg (by simp [hx, hy])]
  split
  case isTrue h => exact le_of_lt h
  case isFalse => cases x <;> simp_all [le]

theorem le_max_right (hx : x ≠ .nan) (hy : y ≠ .nan) : y.le (max x y) = true := by
  unfold max
  rw [if_neg (by simp [hx, hy])]
  split
  case isTrue => exact le_refl hy
  case isFalse h => exact le_of_not_lt hx hy (by simpa using h)

@[simp]
theorem min_fin (p q : ℚ) : min (.fin p) (.fin q) = .fin (Min.min p q) := by
  unfold min
  rw [if_neg nofun]
  split
  case isTrue h => rw [lt_fin] at h; rw [min_eq_right h.le]
  case isFalse h => rw [lt_fin, not_lt] at h; rw [min_eq_left h]

@[simp]
theorem max_fin (p q : ℚ) : max (.fin p) (.fin q) = .fin (Max.max p q) := by
  unfold max
  rw [if_neg nofun]
  split
  case isTrue h => rw [lt_fin] at h; rw [max_eq_right h.le]
  case isFalse h => rw [lt_fin, not_lt] at h; rw [max_eq_left h]

theorem min_of_le (h : y.le x = true) : min x y = y := by
  obtain ⟨hy, hx⟩ := ne_nan_of_le h
  unfold min
  rw [if_neg (by simp [hx, hy])]
  split
  case isTrue => rfl
  case isFalse hlt => cases x <;> cases y <;> simp_all [le, lt]; exact hlt.antisymm h

theorem max_of_le (h : y.le x = true) : max x y = x := by
  obtain ⟨hy, hx⟩ := ne_nan_of_le h
  unfold max
  rw [if_neg (by simp [hx, hy]), not_lt_of_le h]
  exact if_neg nofun

theorem max_nat (m n : ℕ) : max (nat m) (nat n) = nat (Max.max m n) := by simp [nat]

theorem orElse_ne_nan (x : Num) {y : Num} (hy : y ≠ .nan) : x.orElse y ≠ .nan := by
  unfold orElse
  split
  case isTrue => exact hy
  case isFalse h => exact fun hnan => h (.inl hnan)

end Num

/-! ### The operations -/

structure Doubles where
  round : ℚ → Num
  mono : ∀ p q, p ≤ q → (round p).le (round q) = true
  exact : ∀ (m : ℤ) (k : ℕ), |m| ≤ 2 ^ 53 → k ≤ 1000 → round (m / 2 ^ k) = .fin (m / 2 ^ k)

namespace Doubles

/-- Exact arithmetic. -/
instance : Inhabited Doubles := ⟨⟨.fin, fun p q h => by simpa using h, fun _ _ _ _ => rfl⟩⟩

def add (d : Doubles) : Num → Num → Num
  | .nan, _ | _, .nan => .nan
  | .fin p, .fin q => d.round (p + q)
  | .posInf, .negInf | .negInf, .posInf => .nan
  | .posInf, _ | _, .posInf => .posInf
  | .negInf, _ | _, .negInf => .negInf

def sub (d : Doubles) (x y : Num) : Num := d.add x y.neg

/-- An infinity with the sign of a rational. -/
def infinity (q : ℚ) : Num := if q = 0 then .nan else if 0 < q then .posInf else .negInf

def mul (d : Doubles) : Num → Num → Num
  | .nan, _ | _, .nan => .nan
  | .fin p, .fin q => d.round (p * q)
  | .fin q, .posInf | .posInf, .fin q => infinity q
  | .fin q, .negInf | .negInf, .fin q => infinity (-q)
  | .posInf, .posInf | .negInf, .negInf => .posInf
  | .posInf, .negInf | .negInf, .posInf => .negInf

/-- Zeros are positive. -/
def div (d : Doubles) : Num → Num → Num
  | .nan, _ | _, .nan => .nan
  | .fin p, .fin q => if q = 0 then infinity p else d.round (p / q)
  | .fin _, .posInf | .fin _, .negInf => .fin 0
  | .posInf, .fin q => if 0 ≤ q then .posInf else .negInf
  | .negInf, .fin q => if 0 ≤ q then .negInf else .posInf
  | _, _ => .nan

variable (d : Doubles)

theorem round_nat {n : ℕ} (h : n ≤ 2 ^ 53) : d.round n = .nat n := by
  have hround := d.exact n 0 (by rw [abs_of_nonneg (by positivity)]; exact_mod_cast h) (by omega)
  simpa [Num.nat] using hround

theorem round_int {m : ℤ} (h : |m| ≤ 2 ^ 53) : d.round m = .fin m := by
  simpa using d.exact m 0 h (by omega)

theorem add_nat {m n : ℕ} (h : m + n ≤ 2 ^ 53) : d.add (.nat m) (.nat n) = .nat (m + n) := by
  have hround := d.round_nat h
  rwa [Nat.cast_add] at hround

theorem sub_nat {m n : ℕ} (h : m ≤ 2 ^ 53) (hle : n ≤ m) :
    d.sub (.nat m) (.nat n) = .nat (m - n) := by
  have hround := d.round_nat (n := m - n) (by omega)
  rwa [Nat.cast_sub hle, sub_eq_add_neg] at hround

theorem round_ne_nan (q : ℚ) : d.round q ≠ .nan := (Num.ne_nan_of_le (d.mono q q le_rfl)).1

theorem add_mono {x y : Num} (h : x.le y = true) (r : ℚ) :
    (d.add x (.fin r)).le (d.add y (.fin r)) = true := by
  have hround := d.round_ne_nan
  cases x <;> cases y <;> simp only [Num.le, add, Bool.false_eq_true] at h ⊢
  case negInf.fin q => cases hq : d.round (q + r) <;> simp_all
  case fin.fin p q => exact d.mono _ _ (by simpa using h)
  case fin.posInf p => cases hp : d.round (p + r) <;> simp_all

theorem add_swap (x y : Num) : d.add x y = d.add y x := by
  cases x <;> cases y <;> simp only [add]
  rw [add_comm]

end Doubles

end Ds4Studio
