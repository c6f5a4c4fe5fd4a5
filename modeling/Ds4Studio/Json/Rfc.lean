import Ds4Studio.Json.Args

/-!
JSON texts as RFC 8259 defines them, over their UTF-8 bytes. The scanner accepts all of
them up to its nesting limit, and more: any byte inside strings, and every number that
`strtod` reads.
-/

namespace Ds4Studio.Json

open Bytes List Option

/-! ### The grammar -/

/-- The code points that UTF-8 encodes. -/
def Scalar (cp : ℕ) : Prop := cp < 0xd800 ∨ (0xdfff < cp ∧ cp ≤ 0x10ffff)

inductive Utf8 : Bytes → Prop
  | nil : Utf8 []
  | char (cp : ℕ) (s : Bytes) : Scalar cp → Utf8 s → Utf8 (utf8Put cp ++ s)

/-- The bytes behind a backslash that are an escape of their own. -/
def shortEscapes : Bytes := [0x22, 0x5c, 0x2f, 0x62, 0x66, 0x6e, 0x72, 0x74]

/-- What stands between the quotes of a string. -/
inductive Chars : Bytes → Prop
  | nil : Chars []
  | unescaped (cp : ℕ) (s : Bytes) : Scalar cp → 0x20 ≤ cp → cp ≠ 0x22 → cp ≠ 0x5c →
      Chars s → Chars (utf8Put cp ++ s)
  | short (e : UInt8) (s : Bytes) : e ∈ shortEscapes → Chars s → Chars (0x5c :: e :: s)
  | unicode (a b c d : UInt8) (s : Bytes) : isXDigit a → isXDigit b → isXDigit c → isXDigit d →
      Chars s → Chars (0x5c :: 0x75 :: a :: b :: c :: d :: s)

def Digits (s : Bytes) : Prop := s ≠ [] ∧ s.all isDigit = true

/-- No zero stands in front of other digits. -/
def Int (s : Bytes) : Prop := Digits s ∧ (s = [0x30] ∨ s.head? ≠ some 0x30)

def Frac (s : Bytes) : Prop := s = [] ∨ ∃ ds, s = 0x2e :: ds ∧ Digits ds

def Exp (s : Bytes) : Prop :=
  s = [] ∨ ∃ e sign ds, (e = 0x65 ∨ e = 0x45) ∧ (sign = [] ∨ sign = [0x2b] ∨ sign = [0x2d]) ∧
    s = e :: (sign ++ ds) ∧ Digits ds

def Number (s : Bytes) : Prop :=
  ∃ minus int frac exp, (minus = [] ∨ minus = [0x2d]) ∧ Int int ∧ Frac frac ∧ Exp exp ∧
    s = minus ++ (int ++ (frac ++ exp))

def Ws (s : Bytes) : Prop := ∀ c ∈ s, c = 0x20 ∨ c = 0x09 ∨ c = 0x0a ∨ c = 0x0d

/-- The values of the grammar; elements and members are what follows an opening bracket
or brace. -/
inductive Rfc : Phrase → Bytes → Prop
  | string {b : Bytes} : Chars b → Rfc .value (0x22 :: b ++ [0x22])
  | word {w : Bytes} : w ∈ words → Rfc .value w
  | number {t : Bytes} : Number t → Rfc .value t
  | emptyArray {ws : Bytes} : Ws ws → Rfc .value (0x5b :: ws ++ [0x5d])
  | array {ws s : Bytes} : Ws ws → Rfc .elements s → Rfc .value (0x5b :: ws ++ s)
  | emptyObject {ws : Bytes} : Ws ws → Rfc .value (0x7b :: ws ++ [0x7d])
  | object {ws s : Bytes} : Ws ws → Rfc .members s → Rfc .value (0x7b :: ws ++ s)
  | lastElement {s ws : Bytes} : Rfc .value s → Ws ws → Rfc .elements (s ++ (ws ++ [0x5d]))
  | element {s ws ws' t : Bytes} : Rfc .value s → Ws ws → Ws ws' → Rfc .elements t →
      Rfc .elements (s ++ (ws ++ 0x2c :: (ws' ++ t)))
  | lastMember {b ws ws' s ws'' : Bytes} : Chars b → Ws ws → Ws ws' → Rfc .value s → Ws ws'' →
      Rfc .members (0x22 :: b ++ 0x22 :: (ws ++ 0x3a :: (ws' ++ (s ++ (ws'' ++ [0x7d])))))
  | member {b ws ws' s ws'' ws₃ t : Bytes} : Chars b → Ws ws → Ws ws' → Rfc .value s → Ws ws'' →
      Ws ws₃ → Rfc .members t →
      Rfc .members
        (0x22 :: b ++ 0x22 :: (ws ++ 0x3a :: (ws' ++ (s ++ (ws'' ++ 0x2c :: (ws₃ ++ t))))))

def IsObject (s : Bytes) : Prop := Rfc .value s ∧ s.head? = some 0x7b

def IsString (s : Bytes) : Prop := Rfc .value s ∧ s.head? = some 0x22

/-! ### UTF-8 -/

variable {cp : ℕ}

theorem utf8Put_ascii (h : cp ≤ 0x7f) : utf8Put cp = [cp.toUInt8] := by rw [utf8Put, if_pos h]

theorem toNat_of_ascii (h : cp ≤ 0x7f) : cp.toUInt8.toNat = cp := by
  rw [UInt8.toNat_ofNat']
  omega

theorem toUInt8_high {n : ℕ} (h : 0x80 ≤ n) (hlt : n < 0x100) : 0x80 ≤ n.toUInt8 := by
  simp only [UInt8.le_iff_toNat_le, UInt8.toNat_ofNat', UInt8.reduceToNat]
  omega

theorem utf8Put_high (h : 0x7f < cp) (hmax : cp ≤ 0x10ffff) :
    utf8Put cp ≠ [] ∧ ∀ b ∈ utf8Put cp, 0x80 ≤ b := by
  have hlead : ∀ k n, k < 0x100 → 0x80 ≤ k → n < 0x40 → 0x80 ≤ (k ||| n).toUInt8 := by
    intro k n hk hk' hn
    apply toUInt8_high
    · exact Nat.le_trans hk' Nat.left_le_or
    · exact Nat.or_lt_two_pow (n := 8) hk (by omega)
  have hlow : ∀ m, m &&& 0x3f < 0x40 := by
    intro m
    exact Nat.lt_succ_of_le Nat.and_le_right
  unfold utf8Put
  split_ifs with h1 h2 h3
  · omega
  · refine ⟨by simp, ?_⟩
    intro b hb
    simp only [mem_cons, not_mem_nil, or_false] at hb
    rcases hb with rfl | rfl
    · refine hlead _ _ (by omega) (by omega) ?_
      omega
    · exact hlead _ _ (by omega) (by omega) (hlow _)
  · refine ⟨by simp, ?_⟩
    intro b hb
    simp only [mem_cons, not_mem_nil, or_false] at hb
    rcases hb with rfl | rfl | rfl
    · refine hlead _ _ (by omega) (by omega) ?_
      omega
    · exact hlead _ _ (by omega) (by omega) (hlow _)
    · exact hlead _ _ (by omega) (by omega) (hlow _)
  · refine ⟨by simp, ?_⟩
    intro b hb
    simp only [mem_cons, not_mem_nil, or_false] at hb
    rcases hb with rfl | rfl | rfl | rfl
    · refine hlead _ _ (by omega) (by omega) ?_
      omega
    · exact hlead _ _ (by omega) (by omega) (hlow _)
    · exact hlead _ _ (by omega) (by omega) (hlow _)
    · exact hlead _ _ (by omega) (by omega) (hlow _)

theorem Scalar.le (h : Scalar cp) : cp ≤ 0x10ffff := by
  unfold Scalar at h
  omega

theorem utf8Put_cases (h : Scalar cp) :
    (cp ≤ 0x7f ∧ utf8Put cp = [cp.toUInt8]) ∨
      (0x7f < cp ∧ utf8Put cp ≠ [] ∧ ∀ b ∈ utf8Put cp, 0x80 ≤ b) := by
  by_cases hascii : cp ≤ 0x7f
  · exact Or.inl ⟨hascii, utf8Put_ascii hascii⟩
  · exact Or.inr ⟨by omega, utf8Put_high (by omega) h.le⟩

theorem Utf8.append {s t : Bytes} (hs : Utf8 s) (ht : Utf8 t) : Utf8 (s ++ t) := by
  induction hs with
  | nil => exact ht
  | char cp s hcp _ ih =>
    rw [append_assoc]
    exact .char cp _ hcp ih

variable {s : Bytes}

theorem Utf8.ascii (h : ∀ c ∈ s, c < 0x80) : Utf8 s := by
  induction s with
  | nil => exact .nil
  | cons c s ih =>
    have hc := h c mem_cons_self
    simp only [UInt8.lt_iff_toNat_lt, UInt8.reduceToNat] at hc
    have hput : utf8Put c.toNat = [c] := by
      rw [utf8Put_ascii (by omega)]
      simp
    have hrest := ih fun d hd => h d (mem_cons_of_mem c hd)
    have hnext := Utf8.char c.toNat s (Or.inl (by omega)) hrest
    rwa [hput] at hnext

theorem Utf8.cstr (h : Utf8 s) : Utf8 (cstr s) := by
  induction h with
  | nil => exact .nil
  | char cp s hcp _ ih =>
    rcases utf8Put_cases hcp with ⟨hascii, hput⟩ | ⟨hhigh, -, hbytes⟩
    · by_cases hzero : cp = 0
      · subst hzero
        exact .nil
      · have hne : cp.toUInt8 ≠ 0 := by
          intro heq
          have := toNat_of_ascii hascii
          rw [heq] at this
          exact hzero this.symm
        have hkeep : Bytes.cstr (utf8Put cp ++ s) = utf8Put cp ++ Bytes.cstr s := by
          rw [hput, singleton_append, Bytes.cstr, takeWhile_cons_of_pos (by simpa using hne)]
          rfl
        rw [hkeep]
        exact .char cp _ hcp ih
    · have hkeep : Bytes.cstr (utf8Put cp ++ s) = utf8Put cp ++ Bytes.cstr s := by
        apply takeWhile_append_of_pos
        intro b hb
        have := hbytes b hb
        rw [decide_eq_true_eq]
        rintro rfl
        exact absurd this (by decide)
      rw [hkeep]
      exact .char cp _ hcp ih

/-! ### Strings -/

variable {e : UInt8}

theorem short_mem (h : e ∈ shortEscapes) : (jsonShortEscape e).isSome := by
  have hall : shortEscapes.all (fun e => (jsonShortEscape e).isSome) = true := by rfl
  exact all_eq_true.mp hall e h

variable {c : UInt8}

theorem jsonHex_of_xdigit (h : isXDigit c = true) : (jsonHex c).isSome := by
  unfold jsonHex
  unfold isXDigit at h
  split_ifs with h1 h2 h3
  · rfl
  · rfl
  · rfl
  · simp_all

theorem body_high {u s : Bytes} (hu : ∀ b ∈ u, 0x80 ≤ b) (hs : Body s) : Body (u ++ s) := by
  induction u with
  | nil => exact hs
  | cons c u ih =>
    have hc := hu c mem_cons_self
    refine .plain c _ ?_ ?_ (ih fun b hb => hu b (mem_cons_of_mem c hb))
    · rintro rfl
      exact absurd hc (by decide)
    · rintro rfl
      exact absurd hc (by decide)

theorem Chars.body {b : Bytes} (h : Chars b) : Body b := by
  induction h with
  | nil => exact .nil
  | unescaped cp s hcp hlow hquote hback _ ih =>
    rcases utf8Put_cases hcp with ⟨hascii, hput⟩ | ⟨-, -, hbytes⟩
    · have hnat := toNat_of_ascii hascii
      rw [hput]
      refine .plain _ _ ?_ ?_ ih
      · intro heq
        rw [heq] at hnat
        exact hquote hnat.symm
      · intro heq
        rw [heq] at hnat
        exact hback hnat.symm
    · exact body_high hbytes ih
  | short e s he _ ih => exact .short e s (short_mem he) ih
  | unicode a b c d s ha hb hc hd _ ih =>
    exact .unicode a b c d s (jsonHex_of_xdigit ha) (jsonHex_of_xdigit hb) (jsonHex_of_xdigit hc)
      (jsonHex_of_xdigit hd) ih

theorem xdigit_ascii (h : isXDigit c = true) : c < 0x80 := by
  simp only [isXDigit, isDigit, Bool.or_eq_true, Bool.and_eq_true, decide_eq_true_eq,
    UInt8.le_iff_toNat_le, UInt8.lt_iff_toNat_lt, UInt8.reduceToNat] at *
  omega

theorem short_ascii (h : e ∈ shortEscapes) : e < 0x80 := by
  have hall : shortEscapes.all (fun e => e < 0x80) = true := by rfl
  simpa using all_eq_true.mp hall e h

theorem Chars.utf8 {b : Bytes} (h : Chars b) : Utf8 b := by
  induction h with
  | nil => exact .nil
  | unescaped cp s hcp _ _ _ _ ih => exact .char cp s hcp ih
  | short e s he _ ih =>
    have hfront : Utf8 [0x5c, e] := by
      apply Utf8.ascii
      intro c hc
      simp only [mem_cons, not_mem_nil, or_false] at hc
      rcases hc with rfl | rfl
      · decide
      · exact short_ascii he
    exact hfront.append ih
  | unicode a b c d s ha hb hc hd _ ih =>
    have hfront : Utf8 [0x5c, 0x75, a, b, c, d] := by
      apply Utf8.ascii
      intro x hx
      simp only [mem_cons, not_mem_nil, or_false] at hx
      rcases hx with rfl | rfl | rfl | rfl | rfl | rfl
      · decide
      · decide
      · exact xdigit_ascii ha
      · exact xdigit_ascii hb
      · exact xdigit_ascii hc
      · exact xdigit_ascii hd
    exact hfront.append ih

theorem Body.unique {b b' r r' : Bytes} (hb : Body b) (hb' : Body b')
    (h : b ++ 0x22 :: r = b' ++ 0x22 :: r') : b = b' ∧ r = r' := by
  induction hb generalizing b' with
  | nil =>
    cases hb' with
    | nil => simpa using h
    | plain c s hc hback hbody => simp_all
    | short e s he hbody => simp at h
    | unicode a b c d s h₁ h₂ h₃ h₄ hbody => simp at h
  | plain c s hc hback hbody ih =>
    cases hb' with
    | nil => simp_all
    | plain c' s' hc' hback' hbody' =>
      rw [cons_append, cons_append, cons.injEq] at h
      obtain ⟨rfl, htail⟩ := h
      obtain ⟨rfl, rfl⟩ := ih hbody' htail
      exact ⟨rfl, rfl⟩
    | short e s he hbody => simp_all
    | unicode a b c d s h₁ h₂ h₃ h₄ hbody => simp_all
  | short e s he hbody ih =>
    cases hb' with
    | nil => simp at h
    | plain c' s' hc' hback' hbody' => simp_all
    | short e' s' he' hbody' =>
      simp only [cons_append, cons.injEq, true_and] at h
      obtain ⟨rfl, htail⟩ := h
      obtain ⟨rfl, rfl⟩ := ih hbody' htail
      exact ⟨rfl, rfl⟩
    | unicode a b c d s h₁ h₂ h₃ h₄ hbody =>
      simp only [cons_append, cons.injEq, true_and] at h
      obtain ⟨rfl, -⟩ := h
      simp [jsonShortEscape_u] at he
  | unicode a b c d s h₁ h₂ h₃ h₄ hbody ih =>
    cases hb' with
    | nil => simp at h
    | plain c' s' hc' hback' hbody' => simp_all
    | short e' s' he' hbody' =>
      simp only [cons_append, cons.injEq, true_and] at h
      obtain ⟨rfl, -⟩ := h
      simp [jsonShortEscape_u] at he'
    | unicode a' b' c' d' s' h₁' h₂' h₃' h₄' hbody' =>
      simp only [cons_append, cons.injEq, true_and] at h
      obtain ⟨rfl, rfl, rfl, rfl, htail⟩ := h
      obtain ⟨rfl, rfl⟩ := ih hbody' htail
      exact ⟨rfl, rfl⟩

/-! ### Escaped strings -/

theorem jsonEscapeByte_high (h : 0x80 ≤ c) : jsonEscapeByte c = [c] := by
  have hnat : 0x80 ≤ c.toNat := by simpa [UInt8.le_iff_toNat_le] using h
  unfold jsonEscapeByte
  have hne : ∀ d : UInt8, d.toNat < 0x80 → c ≠ d := by
    rintro d hd rfl
    omega
  rw [if_neg, if_neg (hne _ (by decide)), if_neg (hne _ (by decide)), if_neg (hne _ (by decide)),
    if_neg]
  · simp only [UInt8.lt_iff_toNat_lt, UInt8.reduceToNat]
    omega
  · rintro (heq | heq)
    · exact hne _ (by decide) heq
    · exact hne _ (by decide) heq

theorem jsonEscapeByte_cases (c : UInt8) :
    (∃ e ∈ shortEscapes, jsonEscapeByte c = [0x5c, e]) ∨
      (∃ a b, isXDigit a = true ∧ isXDigit b = true ∧
        jsonEscapeByte c = [0x5c, 0x75, 0x30, 0x30, a, b]) ∨
      (0x20 ≤ c ∧ c ≠ 0x22 ∧ c ≠ 0x5c ∧ jsonEscapeByte c = [c]) := by
  have hdigit : ∀ n : UInt8, n.toNat < 16 → isXDigit (hexDigit n) = true := by
    intro n hn
    rw [← UInt8.ofNat_toNat (x := n)]
    generalize n.toNat = k at hn
    interval_cases k <;> rfl
  unfold jsonEscapeByte
  split_ifs with hquoted hn hr ht hlow
  · refine Or.inl ⟨c, ?_, rfl⟩
    rcases hquoted with rfl | rfl <;> simp [shortEscapes]
  · exact Or.inl ⟨0x6e, by simp [shortEscapes], rfl⟩
  · exact Or.inl ⟨0x72, by simp [shortEscapes], rfl⟩
  · exact Or.inl ⟨0x74, by simp [shortEscapes], rfl⟩
  · refine Or.inr (Or.inl ⟨_, _, hdigit _ ?_, hdigit _ ?_, rfl⟩)
    · simp only [UInt8.lt_iff_toNat_lt, UInt8.reduceToNat] at hlow
      simp only [UInt8.toNat_shiftRight, UInt8.reduceToNat, Nat.shiftRight_eq_div_pow, Nat.reduceMod,
        Nat.reducePow]
      omega
    · rw [UInt8.toNat_and]
      exact Nat.lt_of_le_of_lt Nat.and_le_right (by decide)
  · rw [not_or] at hquoted
    exact Or.inr (Or.inr ⟨UInt8.not_lt.mp hlow, hquoted.1, hquoted.2, rfl⟩)

theorem short_ne_u (h : e ∈ shortEscapes) : e ≠ 0x75 := by
  rintro rfl
  simp [shortEscapes] at h

theorem ascii_or_high (c : UInt8) : c < 0x80 ∨ 0x80 ≤ c := by
  rcases Nat.lt_or_ge c.toNat 0x80 with h | h
  · exact Or.inl (by simpa [UInt8.lt_iff_toNat_lt] using h)
  · exact Or.inr (by simpa [UInt8.le_iff_toNat_le] using h)

theorem chars_escapeByte (hc : c < 0x80) (hs : Chars s) : Chars (jsonEscapeByte c ++ s) := by
  rcases jsonEscapeByte_cases c with ⟨e, he, heq⟩ | ⟨a, b, ha, hb, heq⟩ | ⟨hlow, hq, hback, heq⟩
  · rw [heq]
    exact .short e s he hs
  · rw [heq]
    exact .unicode _ _ a b s (by decide) (by decide) ha hb hs
  · simp only [UInt8.le_iff_toNat_le, UInt8.lt_iff_toNat_lt, UInt8.reduceToNat] at hlow hc
    have hput : utf8Put c.toNat = [c] := by
      rw [utf8Put_ascii (by omega)]
      simp
    have hnext := Chars.unescaped c.toNat s (Or.inl (by omega)) hlow
      (fun h => hq (UInt8.toNat_inj.mp h)) (fun h => hback (UInt8.toNat_inj.mp h)) hs
    rwa [hput, ← heq] at hnext

theorem jsonEscapeFragment_high {u : Bytes} (h : ∀ b ∈ u, 0x80 ≤ b) : jsonEscapeFragment u = u := by
  unfold jsonEscapeFragment
  rw [flatMap_congr fun b hb => jsonEscapeByte_high (h b hb)]
  simp

theorem Utf8.chars {v : Bytes} (h : Utf8 v) : Chars (jsonEscapeFragment v) := by
  induction h with
  | nil => exact .nil
  | char cp s hcp _ ih =>
    rw [jsonEscapeFragment_append]
    rcases utf8Put_cases hcp with ⟨hascii, hput⟩ | ⟨hhigh, -, hbytes⟩
    · have hlt : cp.toUInt8 < 0x80 := by
        have := toNat_of_ascii hascii
        simp only [UInt8.lt_iff_toNat_lt, UInt8.reduceToNat]
        omega
      rw [hput]
      simpa [jsonEscapeFragment] using chars_escapeByte hlt ih
    · rw [jsonEscapeFragment_high hbytes]
      exact .unescaped cp _ hcp (by omega) (by omega) (by omega) ih

/-! What is in front of a body is its first character. -/

theorem Chars.front (h : Chars (c :: s)) :
    (c < 0x80 ∧ c ≠ 0x5c ∧ Chars s) ∨
      (0x80 ≤ c ∧ ∃ cp s', Scalar cp ∧ utf8Put cp ≠ [] ∧ (∀ b ∈ utf8Put cp, 0x80 ≤ b) ∧
        c :: s = utf8Put cp ++ s' ∧ Chars s') ∨
      (c = 0x5c ∧ ((∃ e s', s = e :: s' ∧ e ∈ shortEscapes ∧ Chars s') ∨
        ∃ a b c d s', s = 0x75 :: a :: b :: c :: d :: s' ∧ Chars s')) := by
  generalize ht : c :: s = t at h
  cases h with
  | nil => cases ht
  | unescaped cp s' hcp hlow hq hb hs =>
    rcases utf8Put_cases hcp with ⟨hascii, hput⟩ | ⟨-, hne, hbytes⟩
    · rw [hput] at ht
      obtain ⟨rfl, rfl⟩ := cons.inj ht
      have hnat := toNat_of_ascii hascii
      refine Or.inl ⟨?_, fun heq => hb ?_, hs⟩
      · rw [UInt8.lt_iff_toNat_lt, hnat]
        exact Nat.lt_succ_of_le hascii
      · rw [← hnat, heq]
        rfl
    · refine Or.inr (Or.inl ⟨?_, cp, s', hcp, hne, hbytes, rfl, hs⟩)
      obtain ⟨d, u, hput⟩ := exists_cons_of_ne_nil hne
      rw [hput] at ht
      rw [(cons.inj ht).1]
      exact hbytes d (by simp [hput])
  | short e s' he hs =>
    obtain ⟨rfl, rfl⟩ := cons.inj ht
    exact Or.inr (Or.inr ⟨rfl, Or.inl ⟨e, s', rfl, he, hs⟩⟩)
  | unicode a b c' d s' ha hb hc' hd hs =>
    obtain ⟨rfl, rfl⟩ := cons.inj ht
    exact Or.inr (Or.inr ⟨rfl, Or.inr ⟨a, b, c', d, s', rfl, hs⟩⟩)

theorem Chars.tail_plain (h : Chars (c :: s)) (hc : c < 0x80) (hback : c ≠ 0x5c) : Chars s := by
  rcases h.front with ⟨-, -, hs⟩ | ⟨hhigh, -⟩ | ⟨heq, -⟩
  · exact hs
  · exact absurd hc (UInt8.not_lt.mpr hhigh)
  · exact absurd heq hback

theorem Chars.escape (h : Chars (0x5c :: e :: s)) :
    (e ≠ 0x75 ∧ Chars s) ∨
      (e = 0x75 ∧ ∃ a b c d s', s = a :: b :: c :: d :: s' ∧ Chars s') := by
  rcases h.front with ⟨-, hback, -⟩ | ⟨hhigh, -⟩ |
    ⟨-, ⟨e', s', ht, he, hs⟩ | ⟨a, b, c, d, s', ht, hs⟩⟩
  · exact absurd rfl hback
  · exact absurd hhigh (by decide)
  · obtain ⟨rfl, rfl⟩ := cons.inj ht
    exact Or.inl ⟨short_ne_u he, hs⟩
  · obtain ⟨rfl, rfl⟩ := cons.inj ht
    exact Or.inr ⟨rfl, a, b, c, d, s', rfl, hs⟩

theorem Chars.high (h : Chars (c :: s)) (hc : 0x80 ≤ c) :
    ∃ cp s', Scalar cp ∧ utf8Put cp ≠ [] ∧ (∀ b ∈ utf8Put cp, 0x80 ≤ b) ∧
      c :: s = utf8Put cp ++ s' ∧ Chars s' := by
  rcases h.front with ⟨hlow, -⟩ | ⟨-, hchar⟩ | ⟨rfl, -⟩
  · exact absurd hlow (UInt8.not_lt.mpr hc)
  · exact hchar
  · exact absurd hc (by decide)

theorem chars_of_escapeByte (hc : c < 0x80) (h : Chars (jsonEscapeByte c ++ s)) : Chars s := by
  rcases jsonEscapeByte_cases c with ⟨e, he, heq⟩ | ⟨a, b, -, -, heq⟩ | ⟨-, -, hback, heq⟩
  · rw [heq] at h
    rcases Chars.escape h with ⟨-, hs⟩ | ⟨hu, -⟩
    · exact hs
    · exact absurd hu (short_ne_u he)
  · rw [heq] at h
    have hunicode : Chars (0x5c :: 0x75 :: 0x30 :: 0x30 :: a :: b :: s) := h
    rcases hunicode.escape with ⟨hu, -⟩ | ⟨-, _, _, _, _, s', hs, hchars⟩
    · exact absurd rfl hu
    · simp only [cons.injEq] at hs
      rwa [hs.2.2.2.2]
  · rw [heq] at h
    exact h.tail_plain hc hback

theorem jsonEscapeFragment_split {v u s : Bytes} (hu : ∀ b ∈ u, 0x80 ≤ b)
    (h : jsonEscapeFragment v = u ++ s) : ∃ v', v = u ++ v' ∧ s = jsonEscapeFragment v' := by
  induction u generalizing v with
  | nil => exact ⟨v, rfl, h.symm⟩
  | cons b u ih =>
    have hb := hu b mem_cons_self
    cases v with
    | nil => cases h
    | cons c v =>
      have hcons : jsonEscapeFragment (c :: v) = jsonEscapeByte c ++ jsonEscapeFragment v := rfl
      rw [hcons] at h
      rcases jsonEscapeByte_cases c with ⟨e, -, heq⟩ | ⟨x, y, -, -, heq⟩ | ⟨-, -, -, heq⟩
      · rw [heq] at h
        rw [← (cons.inj h).1] at hb
        exact absurd hb (by decide)
      · rw [heq] at h
        rw [← (cons.inj h).1] at hb
        exact absurd hb (by decide)
      · rw [heq] at h
        obtain ⟨rfl, htail⟩ := cons.inj h
        obtain ⟨v', rfl, hs⟩ := ih (fun d hd => hu d (mem_cons_of_mem _ hd)) htail
        exact ⟨v', rfl, hs⟩

variable (v : Bytes)

theorem chars_jsonEscapeFragment_iff : Chars (jsonEscapeFragment v) ↔ Utf8 v := by
  refine ⟨?_, Utf8.chars⟩
  intro h
  induction hlen : v.length using Nat.strong_induction_on generalizing v with
  | h n ih =>
    cases v with
    | nil => exact .nil
    | cons c v =>
      have hcons : jsonEscapeFragment (c :: v) = jsonEscapeByte c ++ jsonEscapeFragment v := rfl
      rw [length_cons] at hlen
      rcases ascii_or_high c with hc | hc
      · rw [hcons] at h
        have hv := ih v.length (by omega) v (chars_of_escapeByte hc h) rfl
        exact (Utf8.ascii (by simpa using hc) : Utf8 [c]).append hv
      · rw [hcons, jsonEscapeByte_high hc] at h
        obtain ⟨cp, s', hcp, hne, hbytes, heq, hs'⟩ := Chars.high h hc
        have hsplit : jsonEscapeFragment (c :: v) = utf8Put cp ++ s' := by
          rw [hcons, jsonEscapeByte_high hc]
          exact heq
        obtain ⟨v', hv', rfl⟩ := jsonEscapeFragment_split hbytes hsplit
        have hshort := congrArg length hv'
        have hpos := length_pos_of_ne_nil hne
        rw [length_append, length_cons] at hshort
        rw [hv']
        exact .char cp v' hcp (ih v'.length (by omega) v' hs' rfl)

/-! ### Numbers -/

theorem takeWhile_digits {ds r : Bytes} (h : ds.all isDigit = true)
    (hr : ∀ c ∈ r.head?, isDigit c = false) :
    (ds ++ r).takeWhile isDigit = ds ∧ (ds ++ r).dropWhile isDigit = r := by
  have hall := all_eq_true.mp h
  rw [takeWhile_append_of_pos hall, dropWhile_append_of_pos hall]
  cases r with
  | nil => simp
  | cons c r =>
    have hc : isDigit c = false := hr c rfl
    simp [hc]

theorem Exp.form (h : Exp s) : expForm [0x65, 0x45] s = true := by
  rcases h with rfl | ⟨e, sign, ds, he, hsign, rfl, hne, hdigits⟩
  · rfl
  · have hmark : e ∈ ([0x65, 0x45] : Bytes) := by rcases he with rfl | rfl <;> decide
    cases ds with
    | nil => exact absurd rfl hne
    | cons d ds =>
      have hd : isDigit d = true := all_eq_true.mp hdigits d mem_cons_self
      have hplus : d ≠ 0x2b := by rintro rfl; exact absurd hd (by decide)
      have hminus : d ≠ 0x2d := by rintro rfl; exact absurd hd (by decide)
      rcases hsign with rfl | rfl | rfl
      · simpa [expForm, hmark, hplus, hminus] using hdigits
      · simpa [expForm, hmark] using hdigits
      · simpa [expForm, hmark] using hdigits

theorem Exp.head (h : Exp s) : ∀ c ∈ s.head?, isDigit c = false ∧ c ≠ 0x2e := by
  rcases h with rfl | ⟨e, sign, ds, he, -, rfl, -⟩
  · intro c hc
    cases hc
  · intro c hc
    rw [← some.inj hc]
    rcases he with rfl | rfl <;> decide

theorem mantissaForm_of_parts {int frac exp : Bytes} (hint : Digits int) (hfrac : Frac frac)
    (hexp : Exp exp) : mantissaForm isDigit [0x65, 0x45] (int ++ (frac ++ exp)) = true := by
  have hform := hexp.form
  have hhead : ∀ c ∈ (frac ++ exp).head?, isDigit c = false := by
    rcases hfrac with rfl | ⟨ds, rfl, -⟩
    · exact fun c hc => (hexp.head c hc).1
    · intro c hc
      rw [← some.inj hc]
      decide
  obtain ⟨htake, hdrop⟩ := takeWhile_digits hint.2 hhead
  simp only [mantissaForm, htake, hdrop]
  rcases hfrac with rfl | ⟨ds, rfl, -, hdigits⟩
  · rw [nil_append]
    cases hcases : exp with
    | nil => simpa using hint.1
    | cons c t =>
      have hdot : c ≠ 0x2e := (hexp.head c (by rw [hcases]; rfl)).2
      rw [hcases] at hform
      simpa [hdot, hint.1] using hform
  · obtain ⟨-, hbehind⟩ := takeWhile_digits hdigits fun c hc => (hexp.head c hc).1
    simpa [hint.1, hbehind] using hform

theorem Number.form (h : Number s) :
    numberForm s = true ∧ ∃ c t, s = c :: t ∧ (isDigit c = true ∨ c = 0x2d) := by
  obtain ⟨minus, int, frac, exp, hminus, ⟨hint, -⟩, hfrac, hexp, rfl⟩ := h
  have hmantissa : unsignedForm (int ++ (frac ++ exp)) = true := by
    simp [unsignedForm, mantissaForm_of_parts hint hfrac hexp]
  rcases hminus with rfl | rfl
  · cases int with
    | nil => exact absurd rfl hint.1
    | cons d ds =>
      have hd : isDigit d = true := all_eq_true.mp hint.2 d mem_cons_self
      refine ⟨?_, d, _, rfl, Or.inl hd⟩
      have hplus : d ≠ 0x2b := by rintro rfl; exact absurd hd (by decide)
      have hdash : d ≠ 0x2d := by rintro rfl; exact absurd hd (by decide)
      simpa [numberForm, hplus, hdash] using hmantissa
  · exact ⟨by simpa [numberForm] using hmantissa, 0x2d, _, rfl, Or.inr rfl⟩

theorem word_head {w : Bytes} (h : w ∈ words) :
    ∃ d v, w = d :: v ∧ (d = 0x74 ∨ d = 0x66 ∨ d = 0x6e) := by
  simp only [words, mem_cons, not_mem_nil, or_false] at h
  rcases h with rfl | rfl | rfl
  · exact ⟨0x74, [0x72, 0x75, 0x65], rfl, Or.inl rfl⟩
  · exact ⟨0x66, [0x61, 0x6c, 0x73, 0x65], rfl, Or.inr (Or.inl rfl)⟩
  · exact ⟨0x6e, [0x75, 0x6c, 0x6c], rfl, Or.inr (Or.inr rfl)⟩

theorem Number.not_word (h : Number s) : ∀ w ∈ words, ¬ w <+: s := by
  obtain ⟨-, c, t, rfl, hc⟩ := h.form
  intro w hw hpre
  obtain ⟨d, v, rfl, hd⟩ := word_head hw
  rw [cons_prefix_cons] at hpre
  obtain ⟨rfl, -⟩ := hpre
  rcases hd with rfl | rfl | rfl <;> rcases hc with hc | hc <;> cases hc

/-! ### Values -/

theorem Ws.spaces (h : Ws s) : Spaces s := by
  intro c hc
  rcases h c hc with rfl | rfl | rfl | rfl <;> decide

theorem Text.mono {p : Phrase} {k k' : ℕ} {s c : Bytes} (h : Text p k s c) (hk : k ≤ k') :
    Text p k' s c := by
  induction h generalizing k' with
  | string hb => exact .string hb
  | word hw => exact .word hw
  | number ht hw => exact .number ht hw
  | emptyArray hws =>
    obtain ⟨j, rfl⟩ : ∃ j, k' = j + 1 := ⟨k' - 1, by omega⟩
    exact .emptyArray hws
  | array hws _ ih =>
    obtain ⟨j, rfl⟩ : ∃ j, k' = j + 1 := ⟨k' - 1, by omega⟩
    exact .array hws (ih (by omega))
  | emptyObject hws =>
    obtain ⟨j, rfl⟩ : ∃ j, k' = j + 1 := ⟨k' - 1, by omega⟩
    exact .emptyObject hws
  | object hws _ ih =>
    obtain ⟨j, rfl⟩ : ∃ j, k' = j + 1 := ⟨k' - 1, by omega⟩
    exact .object hws (ih (by omega))
  | lastElement _ hws ih => exact .lastElement (ih hk) hws
  | element _ hws hws' _ ih iht => exact .element (ih hk) hws hws' (iht hk)
  | lastMember hb hws hws' _ hws'' ih => exact .lastMember hb hws hws' (ih hk) hws''
  | member hb hws hws' _ hws'' hws₃ _ ih iht =>
    exact .member hb hws hws' (ih hk) hws'' hws₃ (iht hk)

theorem Rfc.text {p : Phrase} (h : Rfc p s) : ∃ k c, Text p k s c := by
  induction h with
  | string hb => exact ⟨0, _, .string hb.body⟩
  | word hw => exact ⟨0, _, .word hw⟩
  | number ht => exact ⟨0, _, .number ht.form.1 ht.not_word⟩
  | emptyArray hws => exact ⟨1, _, .emptyArray hws.spaces⟩
  | array hws _ ih =>
    obtain ⟨k, c, hc⟩ := ih
    exact ⟨k + 1, _, .array hws.spaces hc⟩
  | emptyObject hws => exact ⟨1, _, .emptyObject hws.spaces⟩
  | object hws _ ih =>
    obtain ⟨k, c, hc⟩ := ih
    exact ⟨k + 1, _, .object hws.spaces hc⟩
  | lastElement _ hws ih =>
    obtain ⟨k, c, hc⟩ := ih
    exact ⟨k, _, .lastElement hc hws.spaces⟩
  | element _ hws hws' _ ih iht =>
    obtain ⟨k, c, hc⟩ := ih
    obtain ⟨k', d, hd⟩ := iht
    exact ⟨max k k', _, .element (hc.mono (Nat.le_max_left _ _)) hws.spaces hws'.spaces
      (hd.mono (Nat.le_max_right _ _))⟩
  | lastMember hb hws hws' _ hws'' ih =>
    obtain ⟨k, c, hc⟩ := ih
    exact ⟨k, _, .lastMember hb.body hws.spaces hws'.spaces hc hws''.spaces⟩
  | member hb hws hws' _ hws'' hws₃ _ ih iht =>
    obtain ⟨k, c, hc⟩ := ih
    obtain ⟨k', d, hd⟩ := iht
    exact ⟨max k k', _, .member hb.body hws.spaces hws'.spaces (hc.mono (Nat.le_max_left _ _))
      hws''.spaces hws₃.spaces (hd.mono (Nat.le_max_right _ _))⟩

/-- The scanner stops at one place, so a value of the grammar in front of a delimiter is
the value that it accepts there. -/
theorem Rfc.unique {s v r r' : Bytes} (hs : Rfc .value s) (hv : Compact v)
    (h : s ++ r = v ++ r') (hr : Delimited r) (hr' : Delimited r') : s = v ∧ r = r' := by
  obtain ⟨k, c, hc⟩ := hs.text
  have hskip := (hc.mono (Nat.le_max_left k jsonMaxNesting)).skips r hr
  have hskip' := (Text.mono hv (Nat.le_max_right k jsonMaxNesting)).skips r' hr'
  rw [h, hskip'] at hskip
  obtain rfl := some.inj hskip
  exact ⟨append_cancel_right h, rfl⟩

theorem numChar_ascii (h : isNumChar c = true) : c < 0x80 := by
  simp only [isNumChar, isAlnum, isDigit, isUpper, isLower, Bool.or_eq_true, Bool.and_eq_true,
    decide_eq_true_eq, UInt8.le_iff_toNat_le, UInt8.lt_iff_toNat_lt, ← UInt8.toNat_inj,
    UInt8.reduceToNat] at *
  omega

theorem Utf8.word {w : Bytes} (h : w ∈ words) : Utf8 w :=
  .ascii fun c hc => numChar_ascii (words_numChar h c hc)

theorem Ws.utf8 (h : Ws s) : Utf8 s := by
  apply Utf8.ascii
  intro c hc
  rcases h c hc with rfl | rfl | rfl | rfl <;> decide

theorem Utf8.cons (hc : c < 0x80) (hs : Utf8 s) : Utf8 (c :: s) :=
  (Utf8.ascii (by simpa using hc) : Utf8 [c]).append hs

theorem Utf8.tail (hc : c < 0x80) (h : Utf8 (c :: s)) : Utf8 s := by
  generalize ht : c :: s = text at h
  cases h with
  | nil => cases ht
  | char cp s' hcp hs =>
    rcases utf8Put_cases hcp with ⟨-, hput⟩ | ⟨-, hne, hbytes⟩
    · rw [hput] at ht
      rwa [(cons.inj ht).2]
    · obtain ⟨d, u, hput⟩ := exists_cons_of_ne_nil hne
      rw [hput] at ht hbytes
      have hhigh := hbytes d mem_cons_self
      rw [← (cons.inj ht).1, UInt8.le_iff_toNat_le] at hhigh
      rw [UInt8.lt_iff_toNat_lt] at hc
      omega

theorem Number.utf8 (h : Number s) : Utf8 s :=
  .ascii fun c hc => numChar_ascii (numberForm_numChar h.form.1 c hc)

theorem Rfc.utf8 {p : Phrase} (h : Rfc p s) : Utf8 s := by
  induction h with
  | string hb => exact .cons (by decide) (hb.utf8.append (.cons (by decide) .nil))
  | word hw => exact .word hw
  | number ht => exact ht.utf8
  | emptyArray hws => exact .cons (by decide) (hws.utf8.append (.cons (by decide) .nil))
  | array hws _ ih => exact .cons (by decide) (hws.utf8.append ih)
  | emptyObject hws => exact .cons (by decide) (hws.utf8.append (.cons (by decide) .nil))
  | object hws _ ih => exact .cons (by decide) (hws.utf8.append ih)
  | lastElement _ hws ih => exact ih.append (hws.utf8.append (.cons (by decide) .nil))
  | element _ hws hws' _ ih iht =>
    exact ih.append (hws.utf8.append (.cons (by decide) (hws'.utf8.append iht)))
  | lastMember hb hws hws' _ hws'' ih =>
    refine .cons (by decide) (hb.utf8.append (.cons (by decide) (hws.utf8.append ?_)))
    exact .cons (by decide) (hws'.utf8.append (ih.append (hws''.utf8.append (.cons (by decide) .nil))))
  | member hb hws hws' _ hws'' hws₃ _ ih iht =>
    refine .cons (by decide) (hb.utf8.append (.cons (by decide) (hws.utf8.append ?_)))
    refine .cons (by decide) (hws'.utf8.append (ih.append (hws''.utf8.append ?_)))
    exact .cons (by decide) (hws₃.utf8.append iht)

/-! ### Objects -/

/-- A member as the server writes it, with a gap behind the colon. -/
def memberText (gap : Bytes) (m : Bytes × Bytes) : Bytes := jsonEscape m.1 ++ 0x3a :: (gap ++ m.2)

def membersTail (gap : Bytes) : List (Bytes × Bytes) → Bytes
  | [] => [0x7d]
  | m :: ms => 0x2c :: (gap ++ (memberText gap m ++ membersTail gap ms))

def objectText (gap : Bytes) : List (Bytes × Bytes) → Bytes
  | [] => [0x7b, 0x7d]
  | m :: ms => 0x7b :: (memberText gap m ++ membersTail gap ms)

theorem delimited_membersTail (gap : Bytes) (ms : List (Bytes × Bytes)) :
    Delimited (membersTail gap ms) := by
  cases ms with
  | nil => exact delimited_cons (Or.inr (Or.inr rfl)) []
  | cons m ms => exact delimited_cons (Or.inl rfl) _

theorem Rfc.members_cases (h : Rfc .members s) :
    ∃ b ws ws' v ws'' r, Chars b ∧ Ws ws ∧ Ws ws' ∧ Rfc .value v ∧ Ws ws'' ∧
      s = 0x22 :: b ++ 0x22 :: (ws ++ 0x3a :: (ws' ++ (v ++ (ws'' ++ r)))) ∧
      (r = [0x7d] ∨ ∃ ws₃ t, r = 0x2c :: (ws₃ ++ t) ∧ Ws ws₃ ∧ Rfc .members t) := by
  cases h with
  | lastMember hb hws hws' hs hws'' =>
    exact ⟨_, _, _, _, _, _, hb, hws, hws', hs, hws'', rfl, Or.inl rfl⟩
  | member hb hws hws' hs hws'' hws₃ ht =>
    exact ⟨_, _, _, _, _, _, hb, hws, hws', hs, hws'', rfl, Or.inr ⟨_, _, rfl, hws₃, ht⟩⟩

theorem Rfc.object_cases {t : Bytes} (h : Rfc .value (0x7b :: t)) :
    (∃ ws, Ws ws ∧ t = ws ++ [0x7d]) ∨ ∃ ws s, Ws ws ∧ t = ws ++ s ∧ Rfc .members s := by
  generalize ht : 0x7b :: t = u at h
  cases h with
  | string hb => cases ht
  | word hw =>
    obtain ⟨d, v, rfl, hd⟩ := word_head hw
    obtain ⟨rfl, -⟩ := cons.inj ht
    rcases hd with hd | hd | hd <;> cases hd
  | number hn =>
    obtain ⟨-, c, v, rfl, hc⟩ := hn.form
    obtain ⟨rfl, -⟩ := cons.inj ht
    rcases hc with hc | hc
    · exact absurd hc (by decide)
    · exact absurd hc (by decide)
  | emptyArray hws => cases ht
  | array hws hs => cases ht
  | emptyObject hws => exact Or.inl ⟨_, hws, (cons.inj ht).2⟩
  | object hws hs => exact Or.inr ⟨_, _, hws, (cons.inj ht).2, hs⟩

theorem Rfc.members_head (h : Rfc .members s) : ∃ t, s = 0x22 :: t := by
  obtain ⟨b, ws, ws', v, ws'', r, -, -, -, -, -, rfl, -⟩ := h.members_cases
  exact ⟨_, rfl⟩

theorem spaces_append_inj {ws ws' s t : Bytes} (hws : Spaces ws) (hws' : Spaces ws')
    (hs : skipWs s = s) (ht : skipWs t = t) (h : ws ++ s = ws' ++ t) : s = t := by
  have hskip := congrArg skipWs h
  rwa [skipWs_spaces hws, skipWs_spaces hws', hs, ht] at hskip

theorem body_jsonEscapeFragment : Body (jsonEscapeFragment v) := by
  obtain ⟨b, hb, hbody⟩ := jsonStringLoop_body (jsonStringLoop_fragment v [] (Nat.lt_succ_self _))
  rwa [append_cancel_right hb]

variable {gap : Bytes} {m : Bytes × Bytes}

/-- The first member as the grammar reads it is the one that was written. -/
theorem member_inv (hgap : Spaces gap) (hm : Compact m.2) {tail s : Bytes}
    (htail : Delimited tail) (hs : Rfc .members s) (h : s = memberText gap m ++ tail) :
    Utf8 m.1 ∧ Rfc .value m.2 ∧ ∃ ws, Ws ws ∧
      (tail = ws ++ [0x7d] ∨ ∃ ws' t, tail = ws ++ 0x2c :: (ws' ++ t) ∧ Ws ws' ∧ Rfc .members t) := by
  obtain ⟨b, ws, ws', v, ws'', r, hb, hws, hws', hv, hws'', rfl, hr⟩ := hs.members_cases
  obtain ⟨k, c, htext⟩ := hv.text
  have hquoted : b ++ 0x22 :: (ws ++ 0x3a :: (ws' ++ (v ++ (ws'' ++ r)))) =
      jsonEscapeFragment m.1 ++ 0x22 :: (0x3a :: (gap ++ (m.2 ++ tail))) := by
    simpa [memberText, jsonEscape] using h
  obtain ⟨rfl, hbehind⟩ := hb.body.unique (body_jsonEscapeFragment m.1) hquoted
  refine ⟨(chars_jsonEscapeFragment_iff m.1).mp hb, ?_⟩
  have hcolon : 0x3a :: (ws' ++ (v ++ (ws'' ++ r))) = 0x3a :: (gap ++ (m.2 ++ tail)) :=
    spaces_append_inj hws.spaces spaces_nil (skipWs_of_not_space (by decide) _)
      (skipWs_of_not_space (by decide) _) hbehind
  have hvalue : v ++ (ws'' ++ r) = m.2 ++ tail :=
    spaces_append_inj hws'.spaces hgap (htext.skipWs _) (Text.skipWs hm _) (cons.inj hcolon).2
  have hdelimited : Delimited (ws'' ++ r) := by
    apply delimited_spaces hws''.spaces
    rcases hr with rfl | ⟨ws₃, t, rfl, -, -⟩
    · exact delimited_cons (Or.inr (Or.inr rfl)) _
    · exact delimited_cons (Or.inl rfl) _
  obtain ⟨rfl, htail'⟩ := hv.unique hm hvalue hdelimited htail
  refine ⟨hv, ws'', hws'', ?_⟩
  rcases hr with rfl | ⟨ws₃, t, rfl, hws₃, ht⟩
  · exact Or.inl htail'.symm
  · exact Or.inr ⟨ws₃, t, htail'.symm, hws₃, ht⟩

theorem skipWs_memberText (gap : Bytes) (m : Bytes × Bytes) (r : Bytes) :
    skipWs (memberText gap m ++ r) = memberText gap m ++ r := by
  exact skipWs_of_not_space (by decide) _

variable {ms : List (Bytes × Bytes)}

theorem members_inv (hgap : Spaces gap) (hms : ∀ x ∈ m :: ms, Compact x.2) (hs : Rfc .members s)
    (h : s = memberText gap m ++ membersTail gap ms) :
    ∀ x ∈ m :: ms, Utf8 x.1 ∧ Rfc .value x.2 := by
  induction ms generalizing m s with
  | nil =>
    obtain ⟨hkey, hvalue, -⟩ :=
      member_inv hgap (hms m mem_cons_self) (delimited_membersTail gap []) hs h
    intro x hx
    rw [mem_singleton.mp hx]
    exact ⟨hkey, hvalue⟩
  | cons m' ms ih =>
    obtain ⟨hkey, hvalue, ws, hws, htail⟩ :=
      member_inv hgap (hms m mem_cons_self) (delimited_membersTail gap (m' :: ms)) hs h
    have hrest : ∀ x ∈ m' :: ms, Utf8 x.1 ∧ Rfc .value x.2 := by
      rcases htail with hclose | ⟨ws', t, hcomma, hws', ht⟩
      · have := spaces_append_inj spaces_nil hws.spaces (skipWs_of_not_space (by decide) _)
          (skipWs_of_not_space (by decide) _) hclose
        cases this
      · have hnext := spaces_append_inj spaces_nil hws.spaces (skipWs_of_not_space (by decide) _)
          (skipWs_of_not_space (by decide) _) hcomma
        obtain ⟨u, hu⟩ := ht.members_head
        have hskip : skipWs t = t := by
          rw [hu]
          exact skipWs_of_not_space (by decide) _
        have hmember := spaces_append_inj hgap hws'.spaces (skipWs_memberText gap m' _) hskip
          (cons.inj hnext).2
        exact ih (fun x hx => hms x (mem_cons_of_mem m hx)) ht hmember.symm
    intro x hx
    rcases mem_cons.mp hx with rfl | hx
    · exact ⟨hkey, hvalue⟩
    · exact hrest x hx

theorem Rfc.membersText (hgap : Ws gap) (h : ∀ x ∈ m :: ms, Utf8 x.1 ∧ Rfc .value x.2) :
    Rfc .members (memberText gap m ++ membersTail gap ms) := by
  have hnil : Ws [] := by
    intro c hc
    cases hc
  induction ms generalizing m with
  | nil =>
    obtain ⟨hkey, hvalue⟩ := h m mem_cons_self
    have hlast := Rfc.lastMember hkey.chars hnil hgap hvalue hnil
    simpa [memberText, jsonEscape, membersTail] using hlast
  | cons m' ms ih =>
    obtain ⟨hkey, hvalue⟩ := h m mem_cons_self
    have hrest := ih fun x hx => h x (mem_cons_of_mem m hx)
    have hmember := Rfc.member hkey.chars hnil hgap hvalue hnil hgap hrest
    simpa [memberText, jsonEscape, membersTail] using hmember

/-- What the server writes for an object is one of the grammar when its keys are UTF-8 and
its values are of the grammar. -/
theorem isObject_objectText_iff (hgap : Ws gap) (hms : ∀ m ∈ ms, Compact m.2) :
    IsObject (objectText gap ms) ↔ ∀ m ∈ ms, Utf8 m.1 ∧ Rfc .value m.2 := by
  have hnil : Ws [] := by
    intro c hc
    cases hc
  cases ms with
  | nil =>
    refine ⟨fun _ m hm => absurd hm not_mem_nil, fun _ => ⟨.emptyObject hnil, rfl⟩⟩
  | cons m ms =>
    constructor
    · rintro ⟨hvalue, -⟩
      rcases hvalue.object_cases with ⟨ws, hws, hclose⟩ | ⟨ws, s, hws, htext, hs⟩
      · have := spaces_append_inj spaces_nil hws.spaces (skipWs_memberText gap m _)
          (skipWs_of_not_space (by decide) _) hclose
        cases this
      · obtain ⟨u, hu⟩ := hs.members_head
        have hskip : skipWs s = s := by
          rw [hu]
          exact skipWs_of_not_space (by decide) _
        have hmembers := spaces_append_inj spaces_nil hws.spaces (skipWs_memberText gap m _) hskip
          htext
        exact members_inv hgap.spaces hms hs hmembers.symm
    · intro h
      have hobject : Rfc .value (0x7b :: [] ++ (memberText gap m ++ membersTail gap ms)) :=
        .object hnil (Rfc.membersText hgap h)
      exact ⟨hobject, rfl⟩

/-! ### Objects in a response -/

/-- The text of a value that is a string. -/
def decoded (v : Bytes) : Option Bytes :=
  if v.head? = some 0x22 then (jsonString v).map Prod.fst else none

/-- A member as the object reader returns it. -/
def readMember (m : Bytes × Bytes) : JsonArg :=
  match decoded m.2 with
  | some text => ⟨cstr m.1, text, true⟩
  | none => ⟨cstr m.1, m.2, false⟩

/-- A member as it is written again. -/
def sentMember (m : Bytes × Bytes) : Bytes × Bytes :=
  (cstr m.1, match decoded m.2 with
    | some text => jsonEscape text
    | none => m.2)

theorem Text.string_cases {k : ℕ} {v c : Bytes} (h : Text .value k v c)
    (hquote : v.head? = some 0x22) : ∃ b, Body b ∧ v = 0x22 :: b ++ [0x22] := by
  cases h with
  | string hb => exact ⟨_, hb, rfl⟩
  | word hw =>
    obtain ⟨d, u, rfl, hd⟩ := word_head hw
    obtain rfl := some.inj hquote
    rcases hd with hd | hd | hd <;> cases hd
  | number hn _ =>
    obtain ⟨d, t, rfl⟩ := exists_cons_of_ne_nil (numberForm_ne_nil hn)
    have hd := (numChar_plain hn d mem_cons_self).1
    exact absurd (some.inj hquote) hd
  | emptyArray => cases hquote
  | array => cases hquote
  | emptyObject => cases hquote
  | object => cases hquote

theorem Compact.string {v : Bytes} (h : Compact v) (hquote : v.head? = some 0x22) :
    ∃ text, ∀ rest, jsonString (v ++ rest) = some (text, rest) := by
  obtain ⟨b, hb, rfl⟩ := Text.string_cases h hquote
  obtain ⟨text, htext⟩ := jsonString_of_body hb
  refine ⟨text, fun rest => ?_⟩
  simpa using htext rest

theorem jsonArgValue_compact {v rest : Bytes} (h : Compact v) (hrest : Delimited rest) :
    jsonArgValue (v ++ rest) = some (match decoded v with
      | some text => (text, true, rest)
      | none => (v, false, rest)) := by
  obtain ⟨c, t, rfl⟩ := exists_cons_of_ne_nil h.ne_nil
  by_cases hquote : c = 0x22
  · subst hquote
    obtain ⟨text, htext⟩ := h.string rfl
    have hdecoded : decoded (0x22 :: t) = some text := by
      have hnil := htext []
      rw [append_nil] at hnil
      simp [decoded, hnil]
    rw [hdecoded]
    have hread := htext rest
    rw [cons_append] at hread ⊢
    simp only [jsonArgValue, hread, map_some]
  · have hdecoded : decoded (c :: t) = none := by simp [decoded, hquote]
    have hraw := h.raw hrest
    rw [hdecoded]
    unfold jsonArgValue
    split
    · rename_i u heq
      exact absurd (cons.inj heq).1 hquote
    · rw [hraw]
      simp [h.minify]

theorem jsonArgsLoop_member (hgap : Spaces gap) (hm : Compact m.2) {rest : Bytes}
    (hrest : Delimited rest) (fuel : ℕ) :
    jsonArgsLoop (fuel + 1) (memberText gap m ++ rest) =
      (jsonArgsLoop fuel (match skipWs rest with
        | 0x2c :: t => skipWs t
        | t => t)).map (readMember m :: ·) := by
  have hkey := jsonString_jsonEscape_cstr m.1 (0x3a :: (gap ++ (m.2 ++ rest)))
  have hvalue := jsonArgValue_compact hm hrest
  have hws : skipWs (gap ++ (m.2 ++ rest)) = m.2 ++ rest := by
    rw [skipWs_spaces hgap]
    exact Text.skipWs hm rest
  have htext : memberText gap m ++ rest =
      0x22 :: (jsonEscapeFragment m.1 ++ 0x22 :: 0x3a :: (gap ++ (m.2 ++ rest))) := by
    simp [memberText, jsonEscape]
  have hquoted : jsonEscape m.1 ++ 0x3a :: (gap ++ (m.2 ++ rest)) =
      0x22 :: (jsonEscapeFragment m.1 ++ 0x22 :: 0x3a :: (gap ++ (m.2 ++ rest))) := by
    simp [jsonEscape]
  rw [hquoted] at hkey
  rw [htext, jsonArgsLoop, hkey]
  simp only
  rw [skipWs_of_not_space (by decide)]
  simp only [if_true, hws, hvalue, readMember]
  cases decoded m.2 <;> rfl

theorem jsonArgsLoop_members (hgap : Spaces gap) (hms : ∀ x ∈ m :: ms, Compact x.2) {fuel : ℕ}
    (hfuel : (m :: ms).length < fuel) :
    jsonArgsLoop fuel (memberText gap m ++ membersTail gap ms) =
      some ((m :: ms).map readMember) := by
  induction ms generalizing m fuel with
  | nil =>
    obtain ⟨fuel, rfl⟩ : ∃ f, fuel = f + 2 := ⟨fuel - 2, by simp at hfuel; omega⟩
    rw [jsonArgsLoop_member hgap (hms m mem_cons_self) (delimited_membersTail gap [])]
    rw [membersTail, skipWs_of_not_space (by decide)]
    simp [jsonArgsLoop]
  | cons m' ms ih =>
    obtain ⟨fuel, rfl⟩ : ∃ f, fuel = f + 1 := ⟨fuel - 1, by omega⟩
    have hrest := ih (fun x hx => hms x (mem_cons_of_mem m hx))
      (show (m' :: ms).length < fuel by simpa using hfuel)
    rw [jsonArgsLoop_member hgap (hms m mem_cons_self) (delimited_membersTail gap (m' :: ms))]
    rw [membersTail, skipWs_of_not_space (by decide)]
    simp only [skipWs_spaces hgap, skipWs_memberText, hrest, map_some, map_cons]

theorem length_le_membersTail (gap : Bytes) (ms : List (Bytes × Bytes)) :
    ms.length < (membersTail gap ms).length := by
  induction ms with
  | nil => simp [membersTail]
  | cons m ms ih =>
    simp only [membersTail, length_cons, length_append]
    omega

theorem jsonArgsParse_objectText (hgap : Spaces gap) (hms : ∀ m ∈ ms, Compact m.2) :
    jsonArgsParse (objectText gap ms) = some (ms.map readMember) := by
  cases ms with
  | nil =>
    change jsonArgsParse [0x7b, 0x7d] = some []
    rfl
  | cons m ms =>
    have hlen := length_le_membersTail gap ms
    rw [jsonArgsParse, objectText, skipWs_of_not_space (by decide)]
    simp only [skipWs_memberText]
    apply jsonArgsLoop_members hgap hms
    simp only [length_cons, length_append]
    omega

theorem appendJsonArgPair_readMember (m : Bytes × Bytes) :
    appendJsonArgPair (readMember m) = memberText [] (sentMember m) := by
  unfold readMember sentMember
  cases decoded m.2 <;> rfl

theorem intercalate_members (ms : List (Bytes × Bytes)) :
    0x7b :: (intercalate [0x2c] (ms.map (memberText [])) ++ [0x7d]) = objectText [] ms := by
  cases ms with
  | nil => rfl
  | cons m ms =>
    have htail : ∀ m : Bytes × Bytes, intercalate [0x2c] ((m :: ms).map (memberText [])) ++ [0x7d] =
        memberText [] m ++ membersTail [] ms := by
      induction ms with
      | nil => simp [membersTail, intercalate]
      | cons m' ms ih =>
        intro m
        have := ih m'
        simp only [map_cons, intercalate, intersperse, flatten_cons,
          append_assoc, membersTail, nil_append] at this ⊢
        rw [this]
        rfl
    rw [htail m, objectText]

/-- An object that the server has written is written again member by member. -/
theorem appendJsonObjectOrEmpty_objectText (hgap : Spaces gap) (hms : ∀ m ∈ ms, Compact m.2) :
    appendJsonObjectOrEmpty (objectText gap ms) = objectText [] (ms.map sentMember) := by
  unfold appendJsonObjectOrEmpty
  rw [jsonArgsParse_objectText hgap hms]
  simp only [List.map_map]
  rw [← intercalate_members, List.map_map]
  have hpairs : appendJsonArgPair ∘ readMember = memberText [] ∘ sentMember :=
    funext appendJsonArgPair_readMember
  rw [hpairs]

theorem compact_jsonEscape : Compact (jsonEscape v) := Text.string (body_jsonEscapeFragment v)

theorem isString_jsonEscape_iff : IsString (jsonEscape v) ↔ Utf8 v := by
  constructor
  · rintro ⟨hvalue, -⟩
    generalize ht : jsonEscape v = t at hvalue
    cases hvalue with
    | @string b hb =>
      have hcancel : jsonEscapeFragment v = b := append_cancel_right (cons.inj ht).2
      rw [← hcancel] at hb
      exact (chars_jsonEscapeFragment_iff v).mp hb
    | word hw =>
      obtain ⟨d, u, rfl, hd⟩ := word_head hw
      obtain ⟨rfl, -⟩ := cons.inj ht
      rcases hd with hd | hd | hd <;> cases hd
    | number hn =>
      obtain ⟨-, c, u, rfl, hc⟩ := hn.form
      obtain ⟨rfl, -⟩ := cons.inj ht
      rcases hc with hc | hc
      · exact absurd hc (by decide)
      · exact absurd hc (by decide)
    | emptyArray => cases ht
    | array => cases ht
    | emptyObject => cases ht
    | object => cases ht
  · intro h
    exact ⟨.string h.chars, rfl⟩

/-- What is written into a response for an object of the server is JSON together with the
object. -/
theorem response_iff (hgap : Ws gap) (hms : ∀ m ∈ ms, Compact m.2) :
    (IsObject (objectText gap ms) ∧ IsObject (appendJsonObjectOrEmpty (objectText gap ms)) ∧
        IsString (appendJsonObjectString (objectText gap ms))) ↔
      ∀ m ∈ ms, Utf8 m.1 ∧ Rfc .value m.2 ∧ ∀ text ∈ decoded m.2, Utf8 text := by
  have hnil : Ws [] := by
    intro c hc
    cases hc
  have hsent : ∀ x ∈ ms.map sentMember, Compact x.2 := by
    intro x hx
    obtain ⟨m, hm, rfl⟩ := mem_map.mp hx
    unfold sentMember
    cases decoded m.2 with
    | some text => exact compact_jsonEscape text
    | none => exact hms m hm
  rw [appendJsonObjectString, appendJsonObjectOrEmpty_objectText hgap.spaces hms,
    isString_jsonEscape_iff, isObject_objectText_iff hgap hms, isObject_objectText_iff hnil hsent]
  constructor
  · rintro ⟨hfirst, hagain, -⟩ m hm
    refine ⟨(hfirst m hm).1, (hfirst m hm).2, ?_⟩
    intro text htext
    have hvalue := (hagain (sentMember m) (mem_map_of_mem hm)).2
    have hwritten : (sentMember m).2 = jsonEscape text := by rw [sentMember, mem_def.mp htext]
    rw [hwritten] at hvalue
    exact (isString_jsonEscape_iff text).mp ⟨hvalue, rfl⟩
  · intro h
    have hagain : ∀ x ∈ ms.map sentMember, Utf8 x.1 ∧ Rfc .value x.2 := by
      intro x hx
      obtain ⟨m, hm, rfl⟩ := mem_map.mp hx
      obtain ⟨hkey, hvalue, htext⟩ := h m hm
      refine ⟨hkey.cstr, ?_⟩
      unfold sentMember
      cases hdecoded : decoded m.2 with
      | some text => exact ((isString_jsonEscape_iff text).mpr (htext text hdecoded)).1
      | none => exact hvalue
    refine ⟨fun m hm => ⟨(h m hm).1, (h m hm).2.1⟩, hagain, ?_⟩
    exact ((isObject_objectText_iff hnil hsent).mpr hagain).1.utf8

end Ds4Studio.Json
