import Ds4Studio.Files.Text
import Ds4Studio.Json.Printed

/-!
Doubles by their shortest decimals, and how JavaScript and Python print them. A number that is
read from what JavaScript prints is an integer in Python if the text has no point and no exponent.
-/

namespace Ds4Studio.Json.NumberText

open Bytes Files List

/-- The shortest decimal that reads as a double: `0.digits` times a power of ten. -/
structure Decimal where
  neg : Bool
  digits : Bytes
  point : ℤ
  digital : digits.all isDigit = true
  lead : digits.head? ≠ some 0x30
  trail : digits.getLast? ≠ some 0x30
  short : digits.length ≤ 17
  zero : digits = [] → neg = false ∧ point = 0
deriving DecidableEq

def zeros (n : ℕ) : Bytes := replicate n 0x30

def minus (neg : Bool) : Bytes := if neg then [0x2d] else []

/-- One digit, and the others behind a point. -/
def mantissa (digits : Bytes) : Bytes :=
  digits.take 1 ++ (if digits.length = 1 then [] else 0x2e :: digits.drop 1)

def exponent (digitsOf : ℕ → Bytes) (e : ℤ) : Bytes :=
  0x65 :: (if e < 0 then 0x2d else 0x2b) :: digitsOf e.natAbs

def natText (n : ℕ) : Bytes := int n

/-- At least two digits. -/
def padded (n : ℕ) : Bytes := if n < 10 then 0x30 :: natText n else natText n

/-- `Number::toString` without the sign. -/
def jsMagnitude (digits : Bytes) (n : ℤ) : Bytes :=
  if digits = [] then [0x30]
  else if digits.length ≤ n ∧ n ≤ 21 then digits ++ zeros (n.toNat - digits.length)
  else if 0 < n ∧ n ≤ 21 then digits.take n.toNat ++ 0x2e :: digits.drop n.toNat
  else if -6 < n ∧ n ≤ 0 then 0x30 :: 0x2e :: (zeros (-n).toNat ++ digits)
  else mantissa digits ++ exponent natText (n - 1)

def jsNumber (x : Decimal) : Bytes := minus x.neg ++ jsMagnitude x.digits x.point

/-- `float.__repr__` without the sign. -/
def reprMagnitude (digits : Bytes) (n : ℤ) : Bytes :=
  if digits = [] then [0x30, 0x2e, 0x30]
  else if -4 < n ∧ n ≤ 16 then
    if n ≤ 0 then 0x30 :: 0x2e :: (zeros (-n).toNat ++ digits)
    else if digits.length ≤ n then digits ++ zeros (n.toNat - digits.length) ++ [0x2e, 0x30]
    else digits.take n.toNat ++ 0x2e :: digits.drop n.toNat
  else mantissa digits ++ exponent padded (n - 1)

def isIntegral (text : Bytes) : Bool := text.all fun c => c ≠ 0x2e && c ≠ 0x65

/-- What Python prints for a number that it has read from JavaScript's text. -/
def pyNumber (x : Decimal) : Bytes :=
  if isIntegral (jsNumber x) then jsNumber x else minus x.neg ++ reprMagnitude x.digits x.point

/-! ### Digits -/

variable (n : ℕ)

theorem all_zeros : (zeros n).all isDigit = true := by
  apply all_eq_true.mpr
  intro c hc
  rw [eq_of_mem_replicate hc]
  rfl

theorem all_natText : (natText n).all isDigit = true :=
  all_eq_true.mpr fun _ hc => isDigit_of_mem_int hc

theorem natText_ne_nil : natText n ≠ [] := by
  rw [natText, int_natCast]
  exact map_eq_nil_iff.not.mpr Nat.toDigits_ne_nil

theorem all_padded : (padded n).all isDigit = true := by
  rw [padded]
  split_ifs
  · rw [all_cons, all_natText]
    rfl
  · exact all_natText n

theorem padded_ne_nil : padded n ≠ [] := by
  rw [padded]
  split_ifs
  · exact cons_ne_nil _ _
  · exact natText_ne_nil n

/-! ### The parts of a text -/

def fraction (fp : Bytes) : Bytes := if fp = [] then [] else 0x2e :: fp

def scale (digitsOf : ℕ → Bytes) (e : ℤ) : Bytes := if e = 0 then [] else exponent digitsOf e

/-- The digits in front of the point and behind it, and the exponent; without the zeros at the
ends they are those of the decimal. -/
structure Parts (digits : Bytes) (n : ℤ) (ip fp : Bytes) (e : ℤ) : Prop where
  whole : ip.all isDigit = true
  rest : fp.all isDigit = true
  front : ip = [0x30] ∨ ip ≠ [] ∧ ip.head? ≠ some 0x30
  value : ∃ a b, ip ++ fp = zeros a ++ digits ++ zeros b ∧
    (digits ≠ [] → n = (ip.length : ℤ) - a + e)

theorem mantissa_eq (d : UInt8) (digits : Bytes) :
    mantissa (d :: digits) = [d] ++ fraction digits := by
  rw [mantissa, fraction]
  cases digits with
  | nil => rfl
  | cons c digits => rw [if_neg (by simp)]; rfl

theorem mantissa_parts {digits : Bytes} (n : ℤ) (hdigital : digits.all isDigit = true)
    (hlead : digits.head? ≠ some 0x30) (hne : digits ≠ []) :
    ∃ ip fp, mantissa digits = ip ++ fraction fp ∧ Parts digits n ip fp (n - 1) := by
  obtain ⟨d, rest, rfl⟩ := exists_cons_of_ne_nil hne
  rw [all_cons, Bool.and_eq_true] at hdigital
  refine ⟨[d], rest, mantissa_eq d rest, ?_, hdigital.2, .inr ⟨?_, hlead⟩, 0, 0, ?_, fun _ => ?_⟩
  · rw [all_cons, hdigital.1]
    rfl
  · exact cons_ne_nil _ _
  · simp [zeros]
  · rw [length_singleton]
    omega

theorem jsMagnitude_parts {digits : Bytes} {n : ℤ} (hdigital : digits.all isDigit = true)
    (hlead : digits.head? ≠ some 0x30) :
    ∃ ip fp e, jsMagnitude digits n = ip ++ (fraction fp ++ scale natText e) ∧
      Parts digits n ip fp e := by
  rw [jsMagnitude]
  split_ifs with hzero hinteger hpoint hsmall
  · refine ⟨[0x30], [], 0, rfl, rfl, rfl, .inl rfl, 1, 0, ?_, fun h => absurd hzero h⟩
    rw [hzero]
    rfl
  · refine ⟨digits ++ zeros (n.toNat - digits.length), [], 0, ?_, ?_, rfl, .inr ⟨?_, ?_⟩,
      0, n.toNat - digits.length, ?_, fun _ => ?_⟩
    · simp [fraction, scale]
    · rw [all_append, hdigital, all_zeros]
      rfl
    · simp [hzero]
    · rw [head?_append_of_ne_nil _ hzero]
      exact hlead
    · simp [zeros]
    · rw [length_append, zeros, length_replicate]
      omega
  · have hlt : n.toNat < digits.length := by omega
    refine ⟨digits.take n.toNat, digits.drop n.toNat, 0, ?_, ?_, ?_, .inr ⟨?_, ?_⟩, 0, 0, ?_,
      fun _ => ?_⟩
    · have hdrop : digits.drop n.toNat ≠ [] := by
        rw [Ne, drop_eq_nil_iff]
        omega
      simp [fraction, scale, hdrop]
    · exact all_eq_true.mpr fun c hc =>
        all_eq_true.mp hdigital c (mem_of_mem_take hc)
    · exact all_eq_true.mpr fun c hc =>
        all_eq_true.mp hdigital c (mem_of_mem_drop hc)
    · intro hnil
      rcases take_eq_nil_iff.mp hnil with hnil | hnil
      · omega
      · exact hzero hnil
    · rw [head?_take, if_neg (by omega)]
      exact hlead
    · simp [zeros]
    · rw [length_take]
      omega
  · refine ⟨[0x30], zeros (-n).toNat ++ digits, 0, ?_, rfl, ?_, .inl rfl, (-n).toNat + 1, 0, ?_,
      fun _ => ?_⟩
    · have hne : zeros (-n).toNat ++ digits ≠ [] := by simp [hzero]
      simp [fraction, scale, hne]
    · rw [all_append, hdigital, all_zeros]
      rfl
    · simp [zeros, replicate_succ]
    · rw [length_singleton]
      omega
  · have hne : n - 1 ≠ 0 := by
      intro hone
      omega
    obtain ⟨ip, fp, hmantissa, hparts⟩ := mantissa_parts n hdigital hlead hzero
    exact ⟨ip, fp, n - 1, by rw [hmantissa, scale, if_neg hne, append_assoc], hparts⟩

/-! ### Reading a text back -/

theorem Parts.whole_ne_nil {digits ip fp : Bytes} {n e : ℤ} (h : Parts digits n ip fp e) :
    ip ≠ [] := by
  rcases h.front with rfl | ⟨hne, -⟩
  · exact cons_ne_nil _ _
  · exact hne

theorem scale_head {digitsOf : ℕ → Bytes} {e : ℤ} {c : UInt8}
    (h : (scale digitsOf e).head? = some c) : c = 0x65 := by
  rw [scale] at h
  split_ifs at h
  · cases h
  · exact (Option.some.inj h).symm

theorem behind_head {digitsOf : ℕ → Bytes} {fp : Bytes} {e : ℤ} {c : UInt8}
    (h : (fraction fp ++ scale digitsOf e).head? = some c) : isDigit c = false := by
  rw [fraction] at h
  split_ifs at h
  · rw [scale_head h]
    rfl
  · rw [← Option.some.inj h]
    rfl

variable {f g : ℕ → Bytes}

theorem fraction_append {fp fp' : Bytes} {e e' : ℤ}
    (hfp : fp.all isDigit = true) (hfp' : fp'.all isDigit = true)
    (h : fraction fp ++ scale f e = fraction fp' ++ scale g e') :
    fp = fp' ∧ scale f e = scale g e' := by
  have hscale (f : ℕ → Bytes) (e : ℤ) :
      ∀ c, (scale f e).head? = some c → isDigit c = false := by
    intro c hc
    rw [scale_head hc]
    rfl
  have hpoint {f : ℕ → Bytes} {e : ℤ} {rest : Bytes} (h : scale f e = 0x2e :: rest) : False := by
    have hhead := scale_head (congrArg head? h)
    exact absurd hhead (by decide)
  rw [fraction, fraction] at h
  split_ifs at h with hnil hnil' hnil'
  · exact ⟨hnil.trans hnil'.symm, h⟩
  · exact (hpoint h).elim
  · exact (hpoint h.symm).elim
  · exact append_of_all (all_eq_true.mp hfp) (all_eq_true.mp hfp') (hscale f e)
      (hscale g e') (cons.inj h).2

/-- The two ways to write the digits of an exponent. -/
def Writes (f : ℕ → Bytes) : Prop := f = natText ∨ f = padded

theorem natText_of_lt {n : ℕ} (h : n < 10) : natText n = [n.digitChar.toUInt8] := by
  rw [natText, int_natCast, Nat.toDigits_of_lt_base h]
  rfl

theorem natText_of_le {n : ℕ} (h : 10 ≤ n) :
    natText n = natText (n / 10) ++ [(n % 10).digitChar.toUInt8] := by
  rw [natText, natText, int_natCast, int_natCast, Nat.toDigits_of_base_le (by decide) h, map_append]
  rfl

theorem natText_head (h : 0 < n) : (natText n).head? ≠ some 0x30 := by
  induction n using Nat.strongRecOn with
  | ind n ih =>
    rcases Nat.lt_or_ge n 10 with hlt | hge
    · have hall : ∀ k : Fin 10, 0 < k.val → k.val.digitChar.toUInt8 ≠ 0x30 := by decide
      rw [natText_of_lt hlt]
      exact fun hhead => hall ⟨n, hlt⟩ h (Option.some.inj hhead)
    · rw [natText_of_le hge, head?_append_of_ne_nil _ (natText_ne_nil _)]
      exact ih (n / 10) (by omega) (by omega)

theorem natText_ne_zero_cons (m n : ℕ) : natText m ≠ 0x30 :: natText n := by
  intro h
  rcases Nat.eq_zero_or_pos m with rfl | hm
  · rw [natText_of_lt (by decide)] at h
    exact natText_ne_nil n (cons.inj h).2.symm
  · exact natText_head m hm (by rw [h]; rfl)

theorem writes_inj (hf : Writes f) (hg : Writes g) {m n : ℕ}
    (h : f m = g n) : m = n := by
  have hmixed {m n : ℕ} (h : natText m = padded n) : m = n := by
    rw [padded] at h
    split_ifs at h
    · exact absurd h (natText_ne_zero_cons m n)
    · exact int_natCast_injective h
  rcases hf with rfl | rfl <;> rcases hg with rfl | rfl
  · exact int_natCast_injective h
  · exact hmixed h
  · exact (hmixed h.symm).symm
  · rw [padded] at h
    split_ifs at h
    · rw [padded] at h
      split_ifs at h
      · exact int_natCast_injective (cons.inj h).2
      · exact absurd h.symm (natText_ne_zero_cons n m)
    · exact hmixed h

theorem scale_inj (hf : Writes f) (hg : Writes g) {e e' : ℤ}
    (h : scale f e = scale g e') : e = e' := by
  rw [scale, scale] at h
  split_ifs at h with hzero hzero' hzero'
  · exact hzero.trans hzero'.symm
  · exact absurd h.symm (cons_ne_nil _ _)
  · exact absurd h (cons_ne_nil _ _)
  · rw [exponent] at h
    obtain ⟨hsign, hdigits⟩ := cons.inj (cons.inj h).2
    have habs : e.natAbs = e'.natAbs := writes_inj hf hg hdigits
    split_ifs at hsign with hneg hneg' hneg'
    · omega
    · exact absurd hsign (by decide)
    · exact absurd hsign (by decide)
    · omega

theorem Parts.unique (hf : Writes f) (hg : Writes g)
    {digits digits' ip ip' fp fp' : Bytes} {n n' e e' : ℤ} (h : Parts digits n ip fp e)
    (h' : Parts digits' n' ip' fp' e')
    (heq : ip ++ (fraction fp ++ scale f e) = ip' ++ (fraction fp' ++ scale g e')) :
    ip = ip' ∧ fp = fp' ∧ e = e' := by
  obtain ⟨hip, hbehind⟩ := append_of_all (all_eq_true.mp h.whole)
    (all_eq_true.mp h'.whole) (fun _ => behind_head) (fun _ => behind_head) heq
  obtain ⟨hfp, hscale⟩ := fraction_append h.rest h'.rest hbehind
  exact ⟨hip, hfp, scale_inj hf hg hscale⟩

def isZero (c : UInt8) : Bool := c = 0x30

variable {text : Bytes}

theorem dropWhile_zeros (h : text.head? ≠ some 0x30) :
    (zeros n ++ text).dropWhile isZero = text := by
  have hzeros : ∀ c ∈ zeros n, isZero c = true := by
    intro c hc
    rw [eq_of_mem_replicate hc]
    rfl
  rw [dropWhile_append_of_pos hzeros]
  cases text with
  | nil => rfl
  | cons c text =>
    have hc : ¬isZero c = true := by
      intro hzero
      exact h (congrArg some (of_decide_eq_true hzero))
    exact dropWhile_cons_of_neg hc

theorem zeros_inj {a b : ℕ} {s t : Bytes} (hs : s.head? ≠ some 0x30) (ht : t.head? ≠ some 0x30)
    (h : zeros a ++ s = zeros b ++ t) : a = b ∧ s = t := by
  have hst : s = t := by rw [← dropWhile_zeros a hs, h, dropWhile_zeros b ht]
  refine ⟨?_, hst⟩
  have hlength := congrArg length h
  rw [length_append, length_append, zeros, zeros, length_replicate,
    length_replicate, hst] at hlength
  omega

/-- The digits without the zeros at the ends, and how many stand in front. -/
theorem stripped_unique {a b a' b' : ℕ} {s t : Bytes} (hs : s.head? ≠ some 0x30)
    (hs' : s.getLast? ≠ some 0x30) (ht : t.head? ≠ some 0x30) (ht' : t.getLast? ≠ some 0x30)
    (h : zeros a ++ s ++ zeros b = zeros a' ++ t ++ zeros b') : s = t ∧ (s ≠ [] → a = a') := by
  have hnil {a b a' b' : ℕ} {t : Bytes} (ht : t.head? ≠ some 0x30)
      (h : zeros a ++ [] ++ zeros b = zeros a' ++ t ++ zeros b') : t = [] := by
    have hall : ∀ c ∈ t, c = 0x30 := by
      intro c hc
      have hmem : c ∈ zeros a ++ [] ++ zeros b := by
        rw [h]
        simp [hc]
      rw [append_nil, zeros, zeros, replicate_append_replicate] at hmem
      exact eq_of_mem_replicate hmem
    cases t with
    | nil => rfl
    | cons c t => exact absurd (congrArg some (hall c (mem_cons_self ..))) ht
  by_cases hsnil : s = []
  · subst hsnil
    exact ⟨(hnil ht h).symm, fun hne => absurd rfl hne⟩
  · have htnil : t ≠ [] := by
      rintro rfl
      exact hsnil (hnil hs h.symm)
    rw [append_assoc, append_assoc] at h
    obtain ⟨ha, htail⟩ := zeros_inj
      (by rw [head?_append_of_ne_nil _ hsnil]; exact hs)
      (by rw [head?_append_of_ne_nil _ htnil]; exact ht) h
    have hreverse := congrArg reverse htail
    rw [reverse_append, reverse_append, zeros, zeros, reverse_replicate,
      reverse_replicate] at hreverse
    obtain ⟨-, hst⟩ := zeros_inj (by rw [head?_reverse]; exact hs')
      (by rw [head?_reverse]; exact ht') hreverse
    exact ⟨reverse_injective hst, fun _ => ha⟩

/-- A text of a decimal by its parts. -/
def Written (text : Bytes) (x : Decimal) : Prop :=
  ∃ ip fp e f, Writes f ∧ text = minus x.neg ++ (ip ++ (fraction fp ++ scale f e)) ∧
    Parts x.digits x.point ip fp e

theorem minus_append {a b : Bool} {s t x y : Bytes} (hs : s ≠ []) (ht : t ≠ [])
    (hsdigits : s.all isDigit = true) (htdigits : t.all isDigit = true)
    (h : minus a ++ (s ++ x) = minus b ++ (t ++ y)) : a = b ∧ s ++ x = t ++ y := by
  obtain ⟨c, s, rfl⟩ := exists_cons_of_ne_nil hs
  obtain ⟨d, t, rfl⟩ := exists_cons_of_ne_nil ht
  have hc := all_eq_true.mp hsdigits c (mem_cons_self ..)
  have hd := all_eq_true.mp htdigits d (mem_cons_self ..)
  cases a <;> cases b
  · exact ⟨rfl, h⟩
  · obtain rfl := (cons.inj h).1
    exact absurd hc (by decide)
  · obtain rfl := (cons.inj h).1
    exact absurd hd (by decide)
  · exact ⟨rfl, (cons.inj h).2⟩

variable {x : Decimal}

theorem Written.unique {y : Decimal} (hx : Written text x) (hy : Written text y) : x = y := by
  obtain ⟨ip, fp, e, f, hf, htext, hpx⟩ := hx
  obtain ⟨ip', fp', e', g, hg, htext', hpy⟩ := hy
  obtain ⟨hneg, hmagnitude⟩ := minus_append hpx.whole_ne_nil hpy.whole_ne_nil hpx.whole hpy.whole
    (htext.symm.trans htext')
  obtain ⟨rfl, rfl, rfl⟩ := hpx.unique hf hg hpy hmagnitude
  obtain ⟨a, b, hvalue, hpoint⟩ := hpx.value
  obtain ⟨a', b', hvalue', hpoint'⟩ := hpy.value
  obtain ⟨hdigits, hfront⟩ :=
    stripped_unique x.lead x.trail y.lead y.trail (hvalue.symm.trans hvalue')
  have hplace : x.point = y.point := by
    by_cases hnil : x.digits = []
    · rw [(x.zero hnil).2, (y.zero (hdigits ▸ hnil)).2]
    · rw [hpoint hnil, hpoint' (hdigits ▸ hnil), hfront hnil]
  cases x
  cases y
  simp only [Decimal.mk.injEq]
  exact ⟨hneg, hdigits, hplace⟩

theorem Writes.digits {f : ℕ → Bytes} (h : Writes f) (n : ℕ) : Digits (f n) := by
  rcases h with rfl | rfl
  · exact ⟨natText_ne_nil n, all_natText n⟩
  · exact ⟨padded_ne_nil n, all_padded n⟩

theorem Written.number (h : Written text x) : Number text := by
  obtain ⟨ip, fp, e, f, hf, rfl, hparts⟩ := h
  refine ⟨minus x.neg, ip, fraction fp, scale f e, ?_, ?_, ?_, ?_, rfl⟩
  · cases x.neg
    · exact .inl rfl
    · exact .inr rfl
  · rcases hparts.front with rfl | ⟨hne, hhead⟩
    · exact ⟨⟨cons_ne_nil _ _, hparts.whole⟩, .inl rfl⟩
    · exact ⟨⟨hne, hparts.whole⟩, .inr hhead⟩
  · rw [fraction]
    split_ifs with hnil
    · exact .inl rfl
    · exact .inr ⟨fp, rfl, hnil, hparts.rest⟩
  · rw [scale, exponent]
    split_ifs
    · exact .inl rfl
    · exact .inr ⟨0x65, [0x2d], _, .inl rfl, .inr (.inr rfl), rfl, hf.digits _⟩
    · exact .inr ⟨0x65, [0x2b], _, .inl rfl, .inr (.inl rfl), rfl, hf.digits _⟩

theorem written_jsNumber (x : Decimal) : Written (jsNumber x) x := by
  obtain ⟨ip, fp, e, htext, hparts⟩ := jsMagnitude_parts (n := x.point) x.digital x.lead
  exact ⟨ip, fp, e, natText, .inl rfl, by rw [jsNumber, htext], hparts⟩

/-! ### Where the languages differ -/

/-- At least `1e-9` and less than `1e-4`. -/
def Tiny (x : Decimal) : Prop := x.digits ≠ [] ∧ -8 ≤ x.point ∧ x.point ≤ -4

instance (x : Decimal) : Decidable (Tiny x) := inferInstanceAs (Decidable (_ ∧ _ ∧ _))

theorem isIntegral_of_digits (neg : Bool) (h : text.all isDigit = true) :
    isIntegral (minus neg ++ text) = true := by
  have hminus : isIntegral (minus neg) = true := by cases neg <;> rfl
  rw [isIntegral, all_append, Bool.and_eq_true]
  refine ⟨hminus, all_eq_true.mpr fun c hc => ?_⟩
  have hdigit := all_eq_true.mp h c hc
  rw [Bool.and_eq_true, decide_eq_true_eq, decide_eq_true_eq]
  constructor
  · rintro rfl
    exact absurd hdigit (by decide)
  · rintro rfl
    exact absurd hdigit (by decide)

theorem not_isIntegral (h : 0x2e ∈ text ∨ 0x65 ∈ text) : isIntegral text = false := by
  rw [isIntegral, all_eq_false]
  rcases h with h | h
  · exact ⟨_, h, by decide⟩
  · exact ⟨_, h, by decide⟩

theorem jsNumber_integral (h : x.digits = [] ∨ (x.digits.length ≤ x.point ∧ x.point ≤ 21)) :
    isIntegral (jsNumber x) = true := by
  apply isIntegral_of_digits
  rw [jsMagnitude]
  by_cases hzero : x.digits = []
  · rw [if_pos hzero]
    rfl
  · rw [if_neg hzero, if_pos (h.resolve_left hzero), all_append, x.digital, all_zeros]
    rfl

theorem natText_eq_padded {n : ℕ} (h : 10 ≤ n) : natText n = padded n := by
  rw [padded, if_neg (Nat.not_lt.mpr h)]

theorem pyNumber_eq (h : ¬Tiny x) : pyNumber x = jsNumber x := by
  rw [pyNumber]
  split_ifs with hintegral
  · rfl
  have hnot : ¬(x.digits = [] ∨ (x.digits.length ≤ x.point ∧ x.point ≤ 21)) :=
    fun hcase => hintegral (jsNumber_integral hcase)
  obtain ⟨hzero, hinteger⟩ := not_or.mp hnot
  have hfar : x.point < -8 ∨ -4 < x.point := by
    by_contra hnear
    exact h ⟨hzero, by omega, by omega⟩
  have hshort := x.short
  rw [jsNumber, reprMagnitude, jsMagnitude, if_neg hzero, if_neg hzero, if_neg hinteger]
  by_cases hpoint : 0 < x.point ∧ x.point ≤ 21
  · rw [if_pos hpoint, if_pos (by omega), if_neg (by omega), if_neg (by omega)]
  · rw [if_neg hpoint]
    by_cases hsmall : -6 < x.point ∧ x.point ≤ 0
    · rw [if_pos hsmall, if_pos (by omega), if_pos (by omega)]
    · rw [if_neg hsmall, if_neg (by omega), exponent, exponent, natText_eq_padded (by omega)]

theorem mantissa_digits {digits : Bytes} (h : digits ≠ []) (hlead : digits.head? ≠ some 0x30) :
    ∃ d rest, mantissa digits = d :: rest ∧ d ≠ 0x30 := by
  obtain ⟨d, rest, rfl⟩ := exists_cons_of_ne_nil h
  exact ⟨d, _, mantissa_eq d rest, fun hd => hlead (congrArg some hd)⟩

theorem pyNumber_tiny (h : Tiny x) : pyNumber x =
    minus x.neg ++ (mantissa x.digits ++ exponent padded (x.point - 1)) := by
  obtain ⟨hzero, hlow, hhigh⟩ := h
  have hintegral : isIntegral (jsNumber x) = false := by
    apply not_isIntegral
    rw [jsNumber, jsMagnitude, if_neg hzero, if_neg (by omega), if_neg (by omega)]
    split_ifs
    · exact .inl (by simp)
    · exact .inr (by simp [exponent])
  rw [pyNumber, hintegral, if_neg Bool.false_ne_true, reprMagnitude, if_neg hzero,
    if_neg (by omega)]

theorem pyNumber_ne (h : Tiny x) : pyNumber x ≠ jsNumber x := by
  rw [pyNumber_tiny h]
  obtain ⟨hzero, hlow, hhigh⟩ := h
  intro heq
  have hmagnitude := append_cancel_left heq
  rw [jsMagnitude, if_neg hzero, if_neg (by omega), if_neg (by omega)] at hmagnitude
  split_ifs at hmagnitude with hsmall
  · obtain ⟨d, rest, hmantissa, hd⟩ := mantissa_digits hzero x.lead
    rw [hmantissa] at hmagnitude
    exact hd (cons.inj hmagnitude).1
  · have hexponent := append_cancel_left hmagnitude
    have hpadded : padded (x.point - 1).natAbs = 0x30 :: natText (x.point - 1).natAbs :=
      if_pos (by omega)
    rw [exponent, exponent, hpadded] at hexponent
    have hlength := congrArg length hexponent
    simp only [length_cons] at hlength
    omega

theorem pyNumber_eq_iff (x : Decimal) : pyNumber x = jsNumber x ↔ ¬Tiny x :=
  ⟨fun heq htiny => pyNumber_ne htiny heq, pyNumber_eq⟩

theorem written_pyNumber (x : Decimal) : Written (pyNumber x) x := by
  by_cases htiny : Tiny x
  · obtain ⟨ip, fp, hmantissa, hparts⟩ := mantissa_parts x.point x.digital x.lead htiny.1
    refine ⟨ip, fp, x.point - 1, padded, .inr rfl, ?_, hparts⟩
    obtain ⟨-, hlow, hhigh⟩ := id htiny
    rw [pyNumber_tiny htiny, hmantissa, scale, if_neg (by omega), append_assoc]
  · rw [pyNumber_eq htiny]
    exact written_jsNumber x

end Ds4Studio.Json.NumberText
