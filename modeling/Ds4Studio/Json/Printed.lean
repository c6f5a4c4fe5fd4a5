import Ds4Studio.Json.Stringify

/-!
What `JSON.stringify` prints determines the value: characters, strings and values are read
back from the front of any text, up to the end of the text or the next delimiter.
-/

namespace Ds4Studio.Json

open Bytes List Option

/-! ### Characters -/

theorem toUInt8_inj {m n : ℕ} (hm : m < 256) (hn : n < 256) (h : m.toUInt8 = n.toUInt8) :
    m = n := by
  have hnat := congrArg UInt8.toNat h
  simp only [Nat.toUInt8, UInt8.toNat_ofNat'] at hnat
  omega

theorem utf8Put_eq (cp : ℕ) (h : cp < 0x110000) : utf8Put cp =
    if cp ≤ 0x7f then [cp.toUInt8]
    else if cp ≤ 0x7ff then [(0xc0 + cp / 64).toUInt8, (0x80 + cp % 64).toUInt8]
    else if cp ≤ 0xffff then
      [(0xe0 + cp / 4096).toUInt8, (0x80 + cp / 64 % 64).toUInt8, (0x80 + cp % 64).toUInt8]
    else
      [(0xf0 + cp / 262144).toUInt8, (0x80 + cp / 4096 % 64).toUInt8,
        (0x80 + cp / 64 % 64).toUInt8, (0x80 + cp % 64).toUInt8] := by
  have hlow : ∀ n, 0x80 ||| (n &&& 0x3f) = 0x80 + n % 64 := by
    intro n
    rw [Nat.and_two_pow_sub_one_eq_mod n 6]
    exact (Nat.two_pow_add_eq_or_of_lt (i := 7) (a := 1) (by omega)).symm
  have hlead : ∀ k i a n, k = 2 ^ i * a → n < 2 ^ i → k ||| n = k + n := by
    rintro _ i a n rfl hn
    exact (Nat.two_pow_add_eq_or_of_lt hn a).symm
  unfold utf8Put
  simp only [hlow, Nat.shiftRight_eq_div_pow]
  split_ifs with h1 h2 h3
  · rfl
  · rw [hlead 0xc0 5 6 _ rfl (by omega)]
  · rw [hlead 0xe0 4 14 _ rfl (by omega)]
  · rw [hlead 0xf0 3 30 _ rfl (by omega)]

variable {x y : Bytes}

theorem utf8Put_append {a b : ℕ} (ha : a < 0x110000) (hb : b < 0x110000)
    (h : utf8Put a ++ x = utf8Put b ++ y) : a = b ∧ x = y := by
  rw [utf8Put_eq a ha, utf8Put_eq b hb] at h
  split_ifs at h <;>
    simp only [cons_append, nil_append, cons.injEq, ← UInt8.toNat_inj,
      Nat.toUInt8, UInt8.toNat_ofNat'] at h
  -- encodings of one length agree digit by digit, others differ in their first byte
  all_goals first
    | exact ⟨by omega, h.2⟩
    | exact ⟨by omega, h.2.2⟩
    | exact ⟨by omega, h.2.2.2⟩
    | exact ⟨by omega, h.2.2.2.2⟩
    | omega

theorem hexDigit_inj {m n : ℕ} (hm : m < 16) (hn : n < 16)
    (h : hexDigit m.toUInt8 = hexDigit n.toUInt8) : m = n := by
  have hall : ∀ i j : Fin 16, hexDigit i.val.toUInt8 = hexDigit j.val.toUInt8 → i = j := by decide
  exact congrArg Fin.val (hall ⟨m, hm⟩ ⟨n, hn⟩ h)

theorem hexUnit_digits {n : ℕ} (h : n < 0x10000) : ∀ b ∈ hexUnit n, isXDigit b = true := by
  have hall : ∀ i : Fin 16, isXDigit (hexDigit i.val.toUInt8) = true := by decide
  have hdigit : ∀ m, m < 16 → isXDigit (hexDigit m.toUInt8) = true := fun m hm => hall ⟨m, hm⟩
  intro b hb
  simp only [hexUnit, mem_cons, not_mem_nil, or_false] at hb
  rcases hb with rfl | rfl | rfl | rfl <;> exact hdigit _ (by omega)

theorem hexUnit_append {m n : ℕ} (hm : m < 0x10000) (hn : n < 0x10000)
    (h : hexUnit m ++ x = hexUnit n ++ y) : m = n ∧ x = y := by
  unfold hexUnit at h
  simp only [cons_append, nil_append, cons.injEq] at h
  obtain ⟨h₃, h₂, h₁, h₀, hrest⟩ := h
  have h₃ := hexDigit_inj (by omega) (by omega) h₃
  have h₂ := hexDigit_inj (by omega) (by omega) h₂
  have h₁ := hexDigit_inj (by omega) (by omega) h₁
  have h₀ := hexDigit_inj (by omega) (by omega) h₀
  exact ⟨by omega, hrest⟩

/-- The characters that have an escape of two bytes. -/
def shortEscape (cp : ℕ) : Option UInt8 :=
  if cp = 0x22 then some 0x22
  else if cp = 0x5c then some 0x5c
  else if cp = 0x08 then some 0x62
  else if cp = 0x0c then some 0x66
  else if cp = 0x0a then some 0x6e
  else if cp = 0x0d then some 0x72
  else if cp = 0x09 then some 0x74
  else none

def escapes : List (ℕ × UInt8) :=
  [(0x22, 0x22), (0x5c, 0x5c), (0x08, 0x62), (0x0c, 0x66), (0x0a, 0x6e), (0x0d, 0x72), (0x09, 0x74)]

theorem shortEscape_inj {a b : ℕ} {e : UInt8} (ha : shortEscape a = some e)
    (hb : shortEscape b = some e) : a = b := by
  have hmem : ∀ {cp : ℕ}, shortEscape cp = some e → (cp, e) ∈ escapes := by
    intro cp h
    unfold shortEscape at h
    split_ifs at h with h1 h2 h3 h4 h5 h6 h7 <;> cases h <;> subst cp <;> decide
  have hinj : ∀ p ∈ escapes, ∀ q ∈ escapes, p.2 = q.2 → p.1 = q.1 := by decide
  exact hinj _ (hmem ha) _ (hmem hb) rfl

variable {cp : ℕ}

theorem shortEscape_ne : shortEscape cp ≠ some 0x75 := by
  unfold shortEscape
  split_ifs <;> decide

theorem quoteChar_cases (h : cp < 0x110000) :
    (∃ e, shortEscape cp = some e ∧ quoteChar cp = [0x5c, e]) ∨
      (cp < 0x10000 ∧ quoteChar cp = 0x5c :: 0x75 :: hexUnit cp) ∨
      (quoteChar cp = utf8Put cp ∧ ∃ b rest, utf8Put cp = b :: rest ∧ b ≠ 0x22 ∧ b ≠ 0x5c) := by
  unfold quoteChar shortEscape
  split_ifs with h1 h2 h3 h4 h5 h6 h7 h8
  · exact .inl ⟨_, rfl, rfl⟩
  · exact .inl ⟨_, rfl, rfl⟩
  · exact .inl ⟨_, rfl, rfl⟩
  · exact .inl ⟨_, rfl, rfl⟩
  · exact .inl ⟨_, rfl, rfl⟩
  · exact .inl ⟨_, rfl, rfl⟩
  · exact .inl ⟨_, rfl, rfl⟩
  · refine .inr (.inl ⟨?_, rfl⟩)
    unfold isSurrogate at h8
    simp only [Bool.and_eq_true, decide_eq_true_eq] at h8
    omega
  · refine .inr (.inr ⟨rfl, ?_⟩)
    by_cases hascii : cp ≤ 0x7f
    · refine ⟨cp.toUInt8, [], utf8Put_ascii hascii, ?_, ?_⟩
      · intro heq
        exact h1 (toUInt8_inj (by omega) (by omega) heq)
      · intro heq
        exact h2 (toUInt8_inj (by omega) (by omega) heq)
    · obtain ⟨hne, hbytes⟩ := utf8Put_high (by omega) (by omega : cp ≤ 0x10ffff)
      obtain ⟨b, rest, hput⟩ := exists_cons_of_ne_nil hne
      have hhigh : 0x80 ≤ b := hbytes b (by simp [hput])
      refine ⟨b, rest, hput, ?_, ?_⟩
      · rintro rfl
        exact absurd hhigh (by decide)
      · rintro rfl
        exact absurd hhigh (by decide)

theorem quoteChar_head (h : cp < 0x110000) : ∃ b rest, quoteChar cp = b :: rest ∧ b ≠ 0x22 := by
  rcases quoteChar_cases h with ⟨e, -, heq⟩ | ⟨-, heq⟩ | ⟨heq, b, rest, hput, hb, -⟩
  · exact ⟨_, _, heq, by decide⟩
  · exact ⟨_, _, heq, by decide⟩
  · exact ⟨b, rest, heq.trans hput, hb⟩

theorem quoteChar_append {a b : ℕ} (ha : a < 0x110000) (hb : b < 0x110000)
    (h : quoteChar a ++ x = quoteChar b ++ y) : a = b ∧ x = y := by
  rcases quoteChar_cases ha with ⟨e, he, heq⟩ | ⟨hlt, heq⟩ | ⟨heq, c, rest, hput, -, hc⟩ <;>
  rcases quoteChar_cases hb with ⟨e', he', heq'⟩ | ⟨hlt', heq'⟩ | ⟨heq', c', rest', hput', -, hc'⟩
  · rw [heq, heq'] at h
    simp only [cons_append, nil_append, cons.injEq, true_and] at h
    obtain ⟨rfl, hrest⟩ := h
    exact ⟨shortEscape_inj he he', hrest⟩
  · rw [heq, heq'] at h
    simp only [cons_append, nil_append, cons.injEq, true_and] at h
    exact absurd (h.1 ▸ he) shortEscape_ne
  · rw [heq, heq', hput'] at h
    exact absurd (cons.inj h).1.symm hc'
  · rw [heq, heq'] at h
    simp only [cons_append, nil_append, cons.injEq, true_and] at h
    exact absurd (h.1 ▸ he') shortEscape_ne
  · rw [heq, heq'] at h
    simp only [cons_append, cons.injEq, true_and] at h
    exact hexUnit_append hlt hlt' h
  · rw [heq, heq', hput'] at h
    exact absurd (cons.inj h).1.symm hc'
  · rw [heq, heq', hput] at h
    exact absurd (cons.inj h).1 hc
  · rw [heq, heq', hput] at h
    exact absurd (cons.inj h).1 hc
  · rw [heq, heq'] at h
    exact utf8Put_append ha hb h

theorem isSurrogate_lt (h : isSurrogate cp = true) : cp < 0x10000 := by
  simp only [isSurrogate, Bool.and_eq_true, decide_eq_true_eq] at h
  omega

theorem quoteChar_printed (h : cp < 0x110000) : ∀ b ∈ quoteChar cp, 0x20 ≤ b := by
  unfold quoteChar
  split_ifs with h1 h2 h3 h4 h5 h6 h7 h8
  iterate 7 exact forall_of_all (by decide)
  · intro b hb
    rcases mem_cons.mp hb with rfl | hb
    · decide
    rcases mem_cons.mp hb with rfl | hb
    · decide
    have hdigit := hexUnit_digits (h8.elim (fun hlow => by omega) isSurrogate_lt) b hb
    simp only [isXDigit, isDigit, Bool.or_eq_true, Bool.and_eq_true, decide_eq_true_eq,
      UInt8.le_iff_toNat_le, UInt8.reduceToNat] at hdigit ⊢
    omega
  · push Not at h8
    by_cases hascii : cp ≤ 0x7f
    · rw [utf8Put_ascii hascii]
      intro b hb
      obtain rfl := mem_singleton.mp hb
      have hnat := toNat_of_ascii hascii
      simp only [UInt8.le_iff_toNat_le, UInt8.reduceToNat]
      omega
    · intro b hb
      have hhigh := (utf8Put_high (by omega) (by omega : cp ≤ 0x10ffff)).2 b hb
      exact UInt8.le_trans (by decide) hhigh

/-! ### Strings -/

theorem quoteChars_append {s t : JsString}
    (h : quoteChars s ++ 0x22 :: x = quoteChars t ++ 0x22 :: y) : s = t ∧ x = y := by
  have hcons : ∀ (cp : Fin 0x110000) (s : JsString),
      quoteChars (cp :: s) = quoteChar cp ++ quoteChars s := fun _ _ => flatMap_cons
  induction s generalizing t with
  | nil =>
    cases t with
    | nil => exact ⟨rfl, (cons.inj h).2⟩
    | cons cp t =>
      obtain ⟨b, rest, heq, hb⟩ := quoteChar_head cp.isLt
      rw [hcons, heq] at h
      exact absurd (cons.inj h).1.symm hb
  | cons cp s ih =>
    cases t with
    | nil =>
      obtain ⟨b, rest, heq, hb⟩ := quoteChar_head cp.isLt
      rw [hcons, heq] at h
      exact absurd (cons.inj h).1 hb
    | cons cp' t =>
      rw [hcons, hcons, append_assoc, append_assoc] at h
      obtain ⟨hchar, hrest⟩ := quoteChar_append cp.isLt cp'.isLt h
      obtain ⟨rfl, hxy⟩ := ih hrest
      exact ⟨by rw [Fin.ext hchar], hxy⟩

theorem quote_append {s t : JsString} (h : quote s ++ x = quote t ++ y) :
    s = t ∧ x = y := by
  unfold quote at h
  simp only [cons_append, append_assoc, cons.injEq, true_and] at h
  exact quoteChars_append h

theorem quote_printed (s : JsString) : ∀ b ∈ quote s, 0x20 ≤ b := by
  intro b hb
  simp only [quote, quoteChars, mem_cons, mem_append, mem_flatMap, not_mem_nil, or_false] at hb
  rcases hb with rfl | ⟨cp, -, hb⟩ | rfl
  · decide
  · exact quoteChar_printed cp.isLt b hb
  · decide

/-- What the text between the quotes of a string stands for. -/
inductive Denotes : Bytes → Bytes → Prop
  | nil : Denotes [] []
  | unescaped (cp : ℕ) {s t : Bytes} : Scalar cp → 0x20 ≤ cp → cp ≠ 0x22 → cp ≠ 0x5c →
      Denotes s t → Denotes (utf8Put cp ++ s) (utf8Put cp ++ t)
  | short (e v : UInt8) {s t : Bytes} : jsonShortEscape e = some v → Denotes s t →
      Denotes (0x5c :: e :: s) (v :: t)
  | unicode (a b c d : UInt8) (cp : ℕ) {s t : Bytes} :
      jsonU16 [0x5c, 0x75, a, b, c, d] = some (cp, []) → Scalar cp → Denotes s t →
      Denotes (0x5c :: 0x75 :: a :: b :: c :: d :: s) (utf8Put cp ++ t)
  | pair (a b c d a' b' c' d' : UInt8) (hi lo : ℕ) {s t : Bytes} :
      jsonU16 [0x5c, 0x75, a, b, c, d] = some (hi, []) → 0xd800 ≤ hi → hi < 0xdc00 →
      jsonU16 [0x5c, 0x75, a', b', c', d'] = some (lo, []) → 0xdc00 ≤ lo → lo < 0xe000 →
      Denotes s t →
      Denotes (0x5c :: 0x75 :: a :: b :: c :: d :: 0x5c :: 0x75 :: a' :: b' :: c' :: d' :: s)
        (utf8Put (0x10000 + (hi - 0xd800) * 1024 + (lo - 0xdc00)) ++ t)

theorem jsonEscapeByte_printed (c : UInt8) : ∀ b ∈ jsonEscapeByte c, 0x20 ≤ b := by
  have hdigit : ∀ {b : UInt8}, isXDigit b = true → 0x20 ≤ b := by
    intro b hb
    simp only [isXDigit, isDigit, Bool.or_eq_true, Bool.and_eq_true, decide_eq_true_eq,
      UInt8.le_iff_toNat_le, UInt8.reduceToNat] at hb ⊢
    omega
  intro b hb
  rcases jsonEscapeByte_cases c with ⟨e, he, heq⟩ | ⟨x, y, hx, hy, heq⟩ | ⟨hlow, -, -, heq⟩
  · rw [heq] at hb
    simp only [mem_cons, not_mem_nil, or_false] at hb
    rcases hb with rfl | rfl
    · decide
    · exact forall_of_all (P := fun b => 0x20 ≤ b) (by decide) b he
  · rw [heq] at hb
    simp only [mem_cons, not_mem_nil, or_false] at hb
    rcases hb with rfl | rfl | rfl | rfl | rfl | rfl
    iterate 4 decide
    · exact hdigit hx
    · exact hdigit hy
  · rw [heq, mem_singleton] at hb
    rwa [hb]

theorem Denotes.escapeByte {c : UInt8} (hc : c < 0x80) {s t : Bytes} (h : Denotes s t) :
    Denotes (jsonEscapeByte c ++ s) (c :: t) := by
  have hput : utf8Put c.toNat = [c] := by
    simp only [UInt8.lt_iff_toNat_lt, UInt8.reduceToNat] at hc
    rw [utf8Put_ascii (by omega)]
    simp
  unfold jsonEscapeByte
  split_ifs with hquoted hn hr ht hlow
  · rcases hquoted with rfl | rfl
    · exact .short _ _ rfl h
    · exact .short _ _ rfl h
  · subst hn
    exact .short _ _ rfl h
  · subst hr
    exact .short _ _ rfl h
  · subst ht
    exact .short _ _ rfl h
  · have hall : ∀ i : Fin 0x20, jsonU16 [0x5c, 0x75, 0x30, 0x30,
        hexDigit (i.val.toUInt8 >>> 4), hexDigit (i.val.toUInt8 &&& 15)] = some (i.val, []) := by
      decide
    simp only [UInt8.lt_iff_toNat_lt, UInt8.reduceToNat] at hlow
    have hunit := hall ⟨c.toNat, hlow⟩
    simp only [Nat.toUInt8, UInt8.ofNat_toNat] at hunit
    have hnext := Denotes.unicode _ _ _ _ _ hunit (Or.inl (by omega)) h
    rwa [hput] at hnext
  · simp only [UInt8.lt_iff_toNat_lt, UInt8.reduceToNat] at hc hlow
    rw [not_or] at hquoted
    have hnext := Denotes.unescaped c.toNat (Or.inl (by omega)) (by omega)
      (fun heq => hquoted.1 (UInt8.toNat_inj.mp heq))
      (fun heq => hquoted.2 (UInt8.toNat_inj.mp heq)) h
    rwa [hput] at hnext

theorem Utf8.denotes {v : Bytes} (h : Utf8 v) : Denotes (jsonEscapeFragment v) v := by
  induction h with
  | nil => exact .nil
  | char cp s hcp _ ih =>
    rw [jsonEscapeFragment_append]
    rcases utf8Put_cases hcp with ⟨hascii, hput⟩ | ⟨hhigh, -, hbytes⟩
    · have hlt : cp.toUInt8 < 0x80 := by
        have := toNat_of_ascii hascii
        simp only [UInt8.lt_iff_toNat_lt, UInt8.reduceToNat]
        omega
      rw [hput]
      simpa [jsonEscapeFragment] using ih.escapeByte hlt
    · rw [jsonEscapeFragment_high hbytes]
      exact .unescaped cp hcp (by omega) (by omega) (by omega) ih

/-! ### Numbers -/

/-- The end of a text, or a delimiter behind a value. -/
def Stop (x : Bytes) : Prop := ∀ c, x.head? = some c → c = 0x2c ∨ c = 0x5d ∨ c = 0x7d

def isNumeric (c : UInt8) : Bool :=
  isDigit c || c == 0x2b || c == 0x2d || c == 0x2e || c == 0x45 || c == 0x65

theorem Digits.numeric {s : Bytes} (h : Digits s) : ∀ c ∈ s, isNumeric c = true := by
  intro c hc
  have hdigit := all_eq_true.mp h.2 c hc
  simp [isNumeric, hdigit]

theorem Number.numeric {s : Bytes} (h : Number s) : ∀ c ∈ s, isNumeric c = true := by
  obtain ⟨minus, int, frac, exp, hminus, hint, hfrac, hexp, rfl⟩ := h
  intro c hc
  simp only [mem_append] at hc
  rcases hc with hc | hc | hc | hc
  · rcases hminus with rfl | rfl
    · exact absurd hc (by simp)
    · obtain rfl := mem_singleton.mp hc
      rfl
  · exact hint.1.numeric c hc
  · rcases hfrac with rfl | ⟨ds, rfl, hds⟩
    · exact absurd hc (by simp)
    · rcases mem_cons.mp hc with rfl | hc
      · rfl
      · exact hds.numeric c hc
  · rcases hexp with rfl | ⟨e, sign, ds, he, hsign, rfl, hds⟩
    · exact absurd hc (by simp)
    · rcases mem_cons.mp hc with rfl | hc
      · rcases he with rfl | rfl <;> rfl
      rcases mem_append.mp hc with hc | hc
      · rcases hsign with rfl | rfl | rfl
        · exact absurd hc (by simp)
        · obtain rfl := mem_singleton.mp hc
          rfl
        · obtain rfl := mem_singleton.mp hc
          rfl
      · exact hds.numeric c hc

theorem Number.ne_nil {s : Bytes} (h : Number s) : s ≠ [] := by
  obtain ⟨minus, int, frac, exp, -, hint, -, -, rfl⟩ := h
  have hne := hint.1.1
  simp [hne]

/-- A text and what follows it, when all of the one and none of the other is of a kind. -/
theorem append_of_all {p : UInt8 → Bool} {s t x y : Bytes} (hs : ∀ c ∈ s, p c = true)
    (ht : ∀ c ∈ t, p c = true) (hx : ∀ c, x.head? = some c → p c = false)
    (hy : ∀ c, y.head? = some c → p c = false) (h : s ++ x = t ++ y) : s = t ∧ x = y := by
  have hspan : ∀ {s x : Bytes}, (∀ c ∈ s, p c = true) →
      (∀ c, x.head? = some c → p c = false) → (s ++ x).takeWhile p = s := by
    intro s x hs hx
    rw [takeWhile_append_of_pos hs]
    cases x with
    | nil => simp
    | cons c x => simp [hx c rfl]
  have heq : s = t := by rw [← hspan hs hx, h, hspan ht hy]
  subst heq
  exact ⟨rfl, append_cancel_left h⟩

theorem Stop.not_numeric {x : Bytes} (h : Stop x) :
    ∀ c, x.head? = some c → isNumeric c = false := by
  intro c hc
  rcases h c hc with rfl | rfl | rfl <;> rfl

/-! ### Values -/

mutual

/-- Nothing in the value is `undefined`. -/
def Defined : Value → Prop
  | .undefined => False
  | .arr elements => DefinedElements elements
  | .obj members => DefinedMembers members
  | .null | .bool _ | .num _ | .str _ => True

def DefinedElements : List Value → Prop
  | [] => True
  | element :: rest => Defined element ∧ DefinedElements rest

def DefinedMembers : List (JsString × Value) → Prop
  | [] => True
  | (_, value) :: rest => Defined value ∧ DefinedMembers rest

end

/-- The first byte of a text says what kind of value it is. -/
def leadKind (c : UInt8) : ℕ :=
  if c = 0x6e then 0
  else if c = 0x74 ∨ c = 0x66 then 1
  else if c = 0x22 then 3
  else if c = 0x5b then 4
  else if c = 0x7b then 5
  else if isNumeric c then 2
  else 6

def Value.kind : Value → ℕ
  | .undefined | .null => 0
  | .bool _ => 1
  | .num _ => 2
  | .str _ => 3
  | .arr _ => 4
  | .obj _ => 5

theorem leadKind_numeric {c : UInt8} (h : isNumeric c = true) : leadKind c = 2 := by
  have hne : ∀ d, isNumeric d = false → c ≠ d := by
    rintro d hd rfl
    exact absurd h (by simp [hd])
  unfold leadKind
  rw [if_neg (hne _ rfl), if_neg (not_or.mpr ⟨hne _ rfl, hne _ rfl⟩), if_neg (hne _ rfl),
    if_neg (hne _ rfl), if_neg (hne _ rfl), if_pos h]

theorem stringify_head (v : Value) : ∃ c rest, stringify v = c :: rest ∧ leadKind c = v.kind := by
  cases v with
  | undefined => exact ⟨_, _, rfl, rfl⟩
  | null => exact ⟨_, _, rfl, rfl⟩
  | bool b =>
    cases b
    · exact ⟨_, _, rfl, rfl⟩
    · exact ⟨_, _, rfl, rfl⟩
  | num n =>
    obtain ⟨c, rest, heq⟩ := exists_cons_of_ne_nil n.printed.ne_nil
    refine ⟨c, rest, heq, ?_⟩
    exact leadKind_numeric (n.printed.numeric c (by simp [heq]))
  | str s => exact ⟨_, _, rfl, rfl⟩
  | arr elements => exact ⟨_, _, rfl, rfl⟩
  | obj members => exact ⟨_, _, rfl, rfl⟩

theorem kind_of_append {a b : Value} (h : stringify a ++ x = stringify b ++ y) :
    a.kind = b.kind := by
  obtain ⟨c, rest, ha, hc⟩ := stringify_head a
  obtain ⟨d, rest', hb, hd⟩ := stringify_head b
  rw [ha, hb] at h
  rw [← hc, ← hd, (cons.inj h).1]

/-- What follows the first element. -/
def elementsTail : List Value → Bytes
  | [] => []
  | element :: rest => 0x2c :: stringifyElements (element :: rest)

theorem stringifyElements_cons (element : Value) (rest : List Value) :
    stringifyElements (element :: rest) = stringify element ++ elementsTail rest := by
  cases rest with
  | nil => simp [stringifyElements, elementsTail]
  | cons next rest => simp [stringifyElements, elementsTail]

theorem stringifyMembers_cons {value : Value} (h : Defined value) (behind : Bool)
    (key : JsString) (rest : List (JsString × Value)) :
    stringifyMembers behind ((key, value) :: rest) = (if behind then [0x2c] else []) ++
      (quote key ++ 0x3a :: (stringify value ++ stringifyMembers true rest)) := by
  cases value with
  | undefined => exact h.elim
  | _ => rfl

theorem stop_elements (rest : List Value) (x : Bytes) : Stop (elementsTail rest ++ 0x5d :: x) := by
  intro c hc
  cases rest with
  | nil =>
    obtain rfl := some.inj hc
    exact .inr (.inl rfl)
  | cons element rest =>
    obtain rfl := some.inj hc
    exact .inl rfl

theorem stop_members {members : List (JsString × Value)} (h : DefinedMembers members)
    (x : Bytes) : Stop (stringifyMembers true members ++ 0x7d :: x) := by
  intro c hc
  cases members with
  | nil =>
    obtain rfl := some.inj hc
    exact .inr (.inr rfl)
  | cons member rest =>
    rw [stringifyMembers_cons h.1] at hc
    obtain rfl := some.inj hc
    exact .inl rfl

mutual

/-- A value is read back from the front of a text, up to its end or a delimiter. -/
theorem stringify_append : ∀ {a b : Value}, Defined a → Defined b → ∀ {x y : Bytes},
    Stop x → Stop y → stringify a ++ x = stringify b ++ y → a = b ∧ x = y
  | .undefined, _, ha, _, _, _, _, _, _ => ha.elim
  | .null, b, _, hb, _, _, _, _, h => by
    have hkind := kind_of_append h
    cases b with
    | undefined => exact hb.elim
    | null => exact ⟨rfl, append_cancel_left h⟩
    | _ => cases hkind
  | .bool p, b, _, _, _, _, _, _, h => by
    have hkind := kind_of_append h
    cases b with
    | bool q =>
      simp only [stringify] at h
      cases p <;> cases q
      · exact ⟨rfl, append_cancel_left h⟩
      · exact absurd (cons.inj h).1 (by decide)
      · exact absurd (cons.inj h).1 (by decide)
      · exact ⟨rfl, append_cancel_left h⟩
    | _ => cases hkind
  | .num m, b, _, _, _, _, hx, hy, h => by
    have hkind := kind_of_append h
    cases b with
    | num n =>
      obtain ⟨htext, hxy⟩ := append_of_all m.printed.numeric n.printed.numeric hx.not_numeric
        hy.not_numeric h
      refine ⟨?_, hxy⟩
      cases m
      cases n
      subst htext
      rfl
    | _ => cases hkind
  | .str s, b, _, _, _, _, _, _, h => by
    have hkind := kind_of_append h
    cases b with
    | str t =>
      obtain ⟨rfl, hxy⟩ := quote_append h
      exact ⟨rfl, hxy⟩
    | _ => cases hkind
  | .arr es, b, ha, hb, _, _, _, _, h => by
    have hkind := kind_of_append h
    cases b with
    | arr fs =>
      unfold stringify at h
      simp only [cons_append, append_assoc, cons.injEq, true_and] at h
      obtain ⟨rfl, hxy⟩ := elements_append ha hb h
      exact ⟨rfl, hxy⟩
    | _ => cases hkind
  | .obj ms, b, ha, hb, _, _, _, _, h => by
    have hkind := kind_of_append h
    cases b with
    | obj ns =>
      unfold stringify at h
      simp only [cons_append, append_assoc, cons.injEq, true_and] at h
      obtain ⟨rfl, hxy⟩ := members_append ha hb h
      exact ⟨rfl, hxy⟩
    | _ => cases hkind

theorem elements_append : ∀ {es fs : List Value}, DefinedElements es → DefinedElements fs →
    ∀ {x y : Bytes}, stringifyElements es ++ 0x5d :: x = stringifyElements fs ++ 0x5d :: y →
    es = fs ∧ x = y
  | [], [], _, _, _, _, h => ⟨rfl, (cons.inj h).2⟩
  | [], f :: fs, _, _, _, _, h => by
    obtain ⟨c, rest, heq, hkind⟩ := stringify_head f
    rw [stringifyElements_cons, heq] at h
    obtain rfl := (cons.inj h).1
    cases f <;> cases hkind
  | e :: es, [], _, _, _, _, h => by
    obtain ⟨c, rest, heq, hkind⟩ := stringify_head e
    rw [stringifyElements_cons, heq] at h
    obtain rfl := (cons.inj h).1
    cases e <;> cases hkind
  | e :: es, f :: fs, he, hf, x, y, h => by
    rw [stringifyElements_cons, stringifyElements_cons, append_assoc, append_assoc] at h
    obtain ⟨rfl, htail⟩ := stringify_append he.1 hf.1 (stop_elements es x) (stop_elements fs y) h
    cases es with
    | nil =>
      cases fs with
      | nil => exact ⟨rfl, (cons.inj htail).2⟩
      | cons f fs => exact absurd (cons.inj htail).1 (by decide)
    | cons e' es =>
      cases fs with
      | nil => exact absurd (cons.inj htail).1 (by decide)
      | cons f fs =>
        obtain ⟨heq, hxy⟩ := elements_append he.2 hf.2 (cons.inj htail).2
        exact ⟨by rw [heq], hxy⟩

theorem members_append : ∀ {ms ns : List (JsString × Value)}, DefinedMembers ms →
    DefinedMembers ns → ∀ {behind : Bool} {x y : Bytes},
    stringifyMembers behind ms ++ 0x7d :: x = stringifyMembers behind ns ++ 0x7d :: y →
    ms = ns ∧ x = y
  | [], [], _, _, _, _, _, h => ⟨rfl, (cons.inj h).2⟩
  | [], (key, value) :: ns, _, hn, behind, _, _, h => by
    rw [stringifyMembers_cons hn.1] at h
    cases behind <;> exact absurd (cons.inj h).1 (by decide)
  | (key, value) :: ms, [], hm, _, behind, _, _, h => by
    rw [stringifyMembers_cons hm.1] at h
    cases behind <;> exact absurd (cons.inj h).1 (by decide)
  | (key, value) :: ms, (key', value') :: ns, hm, hn, behind, x, y, h => by
    rw [stringifyMembers_cons hm.1, stringifyMembers_cons hn.1, append_assoc,
      append_assoc, append_assoc, append_assoc] at h
    obtain ⟨rfl, hvalue⟩ := quote_append (append_cancel_left h)
    simp only [cons_append, append_assoc, cons.injEq, true_and] at hvalue
    obtain ⟨rfl, htail⟩ :=
      stringify_append hm.1 hn.1 (stop_members hm.2 x) (stop_members hn.2 y) hvalue
    obtain ⟨rfl, hxy⟩ := members_append hm.2 hn.2 htail
    exact ⟨rfl, hxy⟩

end

theorem stringify_injOn {a b : Value} (ha : Defined a) (hb : Defined b)
    (h : stringify a = stringify b) : a = b := by
  have hstop : Stop [] := nofun
  exact (stringify_append ha hb hstop hstop (congrArg (· ++ []) h)).1

mutual

theorem stringify_printed : ∀ (v : Value), ∀ b ∈ stringify v, 0x20 ≤ b
  | .undefined | .null => forall_of_all (by decide)
  | .bool true | .bool false => forall_of_all (by decide)
  | .num n => by
    intro b hb
    have hnumeric := n.printed.numeric b hb
    simp only [isNumeric, isDigit, Bool.or_eq_true, Bool.and_eq_true, decide_eq_true_eq,
      beq_iff_eq, UInt8.le_iff_toNat_le, UInt8.reduceToNat, ← UInt8.toNat_inj] at hnumeric ⊢
    omega
  | .str s => quote_printed s
  | .arr elements => by
    intro b hb
    simp only [stringify, mem_cons, mem_append, not_mem_nil, or_false] at hb
    rcases hb with rfl | hb | rfl
    · decide
    · exact elements_printed elements b hb
    · decide
  | .obj members => by
    intro b hb
    simp only [stringify, mem_cons, mem_append, not_mem_nil, or_false] at hb
    rcases hb with rfl | hb | rfl
    · decide
    · exact members_printed false members b hb
    · decide

theorem elements_printed : ∀ (elements : List Value), ∀ b ∈ stringifyElements elements, 0x20 ≤ b
  | [] => by simp [stringifyElements]
  | [element] => by simpa [stringifyElements] using stringify_printed element
  | element :: element' :: rest => by
    intro b hb
    simp only [stringifyElements, mem_append, mem_cons] at hb
    rcases hb with hb | rfl | hb
    · exact stringify_printed element b hb
    · decide
    · exact elements_printed (element' :: rest) b hb

theorem members_printed (behind : Bool) : ∀ (members : List (JsString × Value)),
    ∀ b ∈ stringifyMembers behind members, 0x20 ≤ b
  | [] => by simp [stringifyMembers]
  | (key, value) :: rest => by
    intro b hb
    by_cases hvalue : value = .undefined
    · subst hvalue
      exact members_printed behind rest b (by simpa [stringifyMembers] using hb)
    · rw [stringifyMembers] at hb
      · simp only [mem_append, mem_cons] at hb
        rcases hb with hb | hb | rfl | hb | hb
        · cases behind
          · cases hb
          · obtain rfl := mem_singleton.mp hb
            decide
        · exact quote_printed key b hb
        · decide
        · exact stringify_printed value b hb
        · exact members_printed true rest b hb
      · exact hvalue

end

end Ds4Studio.Json
