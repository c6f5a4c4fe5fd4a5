import Ds4Studio.Json.Scan
import Mathlib.Tactic.IntervalCases

/-!
The tokens of the scanner. A body is what may stand between the quotes of a
string, whatever `json_string` decodes it to; a number is what `strtod` takes.
Both are read exactly when they stand in front of a delimiter.
-/

namespace Ds4Studio.Json

open Bytes List Option

/-! ### String bodies -/

inductive Body : Bytes → Prop
  | nil : Body []
  | plain (c : UInt8) (s : Bytes) : c ≠ 0x22 → c ≠ 0x5c → Body s → Body (c :: s)
  | short (e : UInt8) (s : Bytes) :
      (jsonShortEscape e).isSome → Body s → Body (0x5c :: e :: s)
  | unicode (a b c d : UInt8) (s : Bytes) :
      (jsonHex a).isSome → (jsonHex b).isSome → (jsonHex c).isSome → (jsonHex d).isSome →
      Body s → Body (0x5c :: 0x75 :: a :: b :: c :: d :: s)

variable {s rest : Bytes}

theorem jsonU16_eq_some {cp : ℕ} (h : jsonU16 s = some (cp, rest)) :
    ∃ a b c d, s = 0x5c :: 0x75 :: a :: b :: c :: d :: rest ∧
      (jsonHex a).isSome ∧ (jsonHex b).isSome ∧ (jsonHex c).isSome ∧ (jsonHex d).isSome := by
  unfold jsonU16 at h
  split at h
  · rename_i b u h₀ h₁ h₂ h₃ rest'
    split at h
    · rename_i hbu
      split at h
      · rename_i e₀ e₁ e₂ e₃
        obtain ⟨rfl, rfl⟩ := hbu
        simp only [some.injEq, Prod.mk.injEq] at h
        refine ⟨h₀, h₁, h₂, h₃, by rw [h.2], ?_, ?_, ?_, ?_⟩ <;> simp [e₀, e₁, e₂, e₃]
      · simp at h
    · simp at h
  · simp at h

theorem jsonHex_quote : jsonHex 0x22 = none := by decide

theorem jsonHex_backslash : jsonHex 0x5c = none := by decide

theorem jsonShortEscape_u : jsonShortEscape 0x75 = none := by decide

theorem jsonU16_of_hex (a b c d : UInt8) (ha : (jsonHex a).isSome)
    (hb : (jsonHex b).isSome) (hc : (jsonHex c).isSome) (hd : (jsonHex d).isSome) :
    ∃ cp, ∀ rest, jsonU16 (0x5c :: 0x75 :: a :: b :: c :: d :: rest) = some (cp, rest) := by
  obtain ⟨_, ha⟩ := isSome_iff_exists.mp ha
  obtain ⟨_, hb⟩ := isSome_iff_exists.mp hb
  obtain ⟨_, hc⟩ := isSome_iff_exists.mp hc
  obtain ⟨_, hd⟩ := isSome_iff_exists.mp hd
  simp [jsonU16, ha, hb, hc, hd]

variable {c : UInt8}

theorem jsonStringUnit_plain (h : c ≠ 0x5c) (rest : Bytes) :
    jsonStringUnit c rest = some ([c], rest) := by
  simp [jsonStringUnit, h]

/-- A unit of the loop is one element of a body, or two behind a high surrogate. -/
theorem jsonStringUnit_body {out behind : Bytes} (hc : c ≠ 0x22)
    (h : jsonStringUnit c rest = some (out, behind)) :
    ∃ u, c :: rest = u ++ behind ∧ ∀ s, Body s → Body (u ++ s) := by
  unfold jsonStringUnit at h
  split at h
  · rename_i hback
    subst hback
    split at h
    · simp at h
    · split at h
      · rename_i e rest' he
        split at h
        · simp at h
        · rename_i cp behind₁ hu
          obtain ⟨a₁, b₁, c₁, d₁, hs, ha, hb, hcc, hd⟩ := jsonU16_eq_some hu
          have hone : ∀ s, Body s → Body ([0x5c, 0x75, a₁, b₁, c₁, d₁] ++ s) :=
            fun s hbody => Body.unicode _ _ _ _ _ ha hb hcc hd hbody
          split at h
          · split at h
            · simp only [some.injEq, Prod.mk.injEq] at h
              exact ⟨[0x5c, 0x75, a₁, b₁, c₁, d₁], by rw [hs, h.2]; rfl, hone⟩
            · rename_i lo behind₂ hl
              obtain ⟨a₂, b₂, c₂, d₂, hs₂, ha₂, hb₂, hc₂, hd₂⟩ := jsonU16_eq_some hl
              have htwo : ∀ s, Body s → Body
                  ([0x5c, 0x75, a₁, b₁, c₁, d₁, 0x5c, 0x75, a₂, b₂, c₂, d₂] ++ s) :=
                fun s hbody => hone _ (Body.unicode _ _ _ _ _ ha₂ hb₂ hc₂ hd₂ hbody)
              split at h <;>
              · simp only [some.injEq, Prod.mk.injEq] at h
                exact ⟨_, by rw [hs, hs₂, h.2]; rfl, htwo⟩
          · simp only [some.injEq, Prod.mk.injEq] at h
            exact ⟨[0x5c, 0x75, a₁, b₁, c₁, d₁], by rw [hs, h.2]; rfl, hone⟩
      · rename_i e rest' he
        simp only [map_eq_some_iff, Prod.mk.injEq] at h
        obtain ⟨b, hb, -, rfl⟩ := h
        exact ⟨[0x5c, e], rfl, fun s hbody => Body.short e s (by simp [hb]) hbody⟩
  · rename_i hback
    simp only [some.injEq, Prod.mk.injEq] at h
    exact ⟨[c], by simp [h.2], fun s hbody => Body.plain c s hc hback hbody⟩

theorem jsonStringLoop_body {fuel : ℕ} {out : Bytes}
    (h : jsonStringLoop fuel s = some (out, rest)) : ∃ b, s = b ++ 0x22 :: rest ∧ Body b := by
  induction fuel generalizing s out with
  | zero => simp [jsonStringLoop] at h
  | succ fuel ih =>
    cases s with
    | nil => simp [jsonStringLoop] at h
    | cons c s =>
      by_cases hc : c = 0x22
      · simp only [jsonStringLoop, hc, if_true, some.injEq, Prod.mk.injEq] at h
        exact ⟨[], by simp [hc, h.2], Body.nil⟩
      · simp only [jsonStringLoop, hc, if_false] at h
        split at h
        · simp at h
        · rename_i out₁ behind hu
          simp only [map_eq_some_iff, Prod.mk.injEq] at h
          obtain ⟨⟨out₂, rest₂⟩, hloop, -, rfl⟩ := h
          obtain ⟨b, rfl, hb⟩ := ih hloop
          obtain ⟨u, hu, hunit⟩ := jsonStringUnit_body hc hu
          exact ⟨u ++ b, by rw [hu, append_assoc], hunit b hb⟩

variable {b : Bytes}

/-- The escape at the front of a body is the one the reader sees, whatever
stands behind the closing quote. -/
theorem jsonU16_of_body (hb : Body b) :
    (∀ rest, jsonU16 (b ++ 0x22 :: rest) = none) ∨
      ∃ cp b', Body b' ∧ b'.length < b.length ∧
        ∀ rest, jsonU16 (b ++ 0x22 :: rest) = some (cp, b' ++ 0x22 :: rest) := by
  have hnone : ∀ s, s.head? ≠ some 0x5c ∨ s.tail.head? ≠ some 0x75 → jsonU16 s = none := by
    intro s hs
    cases hread : jsonU16 s with
    | none => rfl
    | some r =>
      obtain ⟨_, _, _, _, rfl, -⟩ := jsonU16_eq_some hread
      simp at hs
  cases hb with
  | nil => exact Or.inl fun rest => hnone _ (Or.inl (by simp))
  | plain c s hc hback hbody => exact Or.inl fun rest => hnone _ (Or.inl (by simpa using hback))
  | short e s he hbody =>
    refine Or.inl fun rest => hnone _ (Or.inr ?_)
    simp only [cons_append, tail_cons, head?_cons, ne_eq, some.injEq]
    rintro rfl
    simp [jsonShortEscape_u] at he
  | unicode a b c d s h₁ h₂ h₃ h₄ hbody =>
    right
    obtain ⟨cp, hcp⟩ := jsonU16_of_hex a b c d h₁ h₂ h₃ h₄
    exact ⟨cp, s, hbody, by simp only [length_cons]; omega, fun rest => hcp _⟩

/-- One turn of the reader's loop stays inside a body, and does not see what is behind. -/
theorem jsonStringUnit_of_body (hb : Body (c :: b)) :
    ∃ out b', Body b' ∧ b'.length ≤ b.length ∧
      ∀ rest, jsonStringUnit c (b ++ 0x22 :: rest) = some (out, b' ++ 0x22 :: rest) := by
  cases hb with
  | plain c s hc hback hbody =>
    exact ⟨[c], b, hbody, Nat.le_refl _, fun rest => jsonStringUnit_plain hback _⟩
  | short e s he hbody =>
    obtain ⟨v, hv⟩ := isSome_iff_exists.mp he
    have hu : e ≠ 0x75 := by
      rintro rfl
      simp [jsonShortEscape_u] at hv
    exact ⟨[v], s, hbody, Nat.le_succ _, fun rest => by simp [jsonStringUnit, hu, hv]⟩
  | unicode a₁ b₁ c₁ d₁ s h₁ h₂ h₃ h₄ hbody =>
    obtain ⟨cp, hcp⟩ := jsonU16_of_hex a₁ b₁ c₁ d₁ h₁ h₂ h₃ h₄
    have hlen : s.length ≤ (0x75 :: a₁ :: b₁ :: c₁ :: d₁ :: s).length := by
      simp only [length_cons]
      omega
    by_cases hhigh : 0xd800 ≤ cp ∧ cp ≤ 0xdbff
    · rcases jsonU16_of_body hbody with hsingle | ⟨lo, b', hbody', hlt, hpair⟩
      · exact ⟨utf8Put cp, s, hbody, hlen, fun rest => by
          simp [jsonStringUnit, hcp, hhigh, hsingle rest]⟩
      · by_cases hlow : 0xdc00 ≤ lo ∧ lo ≤ 0xdfff
        · exact ⟨utf8Put (0x10000 + (cp - 0xd800) * 1024 + (lo - 0xdc00)), b', hbody', by omega,
            fun rest => by
            simp [jsonStringUnit, hcp, hhigh, hpair rest, hlow]⟩
        · exact ⟨utf8Put cp, b', hbody', by omega, fun rest => by
            simp [jsonStringUnit, hcp, hhigh, hpair rest, hlow]⟩
    · exact ⟨utf8Put cp, s, hbody, hlen, fun rest => by
        simp [jsonStringUnit, hcp, hhigh]⟩

theorem jsonStringLoop_of_body (hb : Body b) :
    ∃ out, ∀ rest fuel, b.length < fuel →
      jsonStringLoop fuel (b ++ 0x22 :: rest) = some (out, rest) := by
  induction hlen : b.length using Nat.strong_induction_on generalizing b with
  | h n ih =>
    cases b with
    | nil =>
      refine ⟨[], fun rest fuel hfuel => ?_⟩
      obtain ⟨fuel, rfl⟩ : ∃ f, fuel = f + 1 := ⟨fuel - 1, by omega⟩
      simp [jsonStringLoop]
    | cons c b =>
      rw [length_cons] at hlen
      have hc : c ≠ 0x22 := by
        rintro rfl
        cases hb with
        | plain c s hc hback hbody => exact hc rfl
      obtain ⟨out, b', hb', hle, hunit⟩ := jsonStringUnit_of_body hb
      obtain ⟨out', hout'⟩ := ih b'.length (by omega) hb' rfl
      refine ⟨out ++ out', fun rest fuel hfuel => ?_⟩
      obtain ⟨fuel, rfl⟩ : ∃ f, fuel = f + 1 := ⟨fuel - 1, by omega⟩
      simp only [cons_append, jsonStringLoop, hc, if_false, hunit rest,
        hout' rest fuel (by omega), map_some]

theorem jsonString_eq_some {out : Bytes} (h : jsonString s = some (out, rest)) :
    ∃ b, skipWs s = 0x22 :: b ++ 0x22 :: rest ∧ Body b := by
  unfold jsonString at h
  split at h
  · simp at h
  · rename_i c t hs
    split at h
    · rename_i hc
      subst hc
      simp only [map_eq_some_iff, Prod.mk.injEq] at h
      obtain ⟨⟨out', rest'⟩, hloop, -, rfl⟩ := h
      obtain ⟨b, rfl, hb⟩ := jsonStringLoop_body hloop
      exact ⟨b, by rw [hs]; rfl, hb⟩
    · simp at h

theorem jsonString_of_body (hb : Body b) :
    ∃ out, ∀ rest, jsonString (0x22 :: b ++ 0x22 :: rest) = some (out, rest) := by
  obtain ⟨out, hloop⟩ := jsonStringLoop_of_body hb
  refine ⟨cstr out, fun rest => ?_⟩
  have hfuel : b.length < (b ++ 0x22 :: rest).length + 1 := by
    simp only [length_append]
    omega
  have hout := hloop rest _ hfuel
  simp only [jsonString, cons_append, skipWs_of_not_space (show isSpace 0x22 = false by decide),
    if_true, hout, map_some]

theorem minifyLoop_body (hb : Body b) (rest : Bytes) :
    minifyLoop true false (b ++ 0x22 :: rest) = b ++ 0x22 :: minifyLoop false false rest := by
  have hexPlain : ∀ {c : UInt8}, (jsonHex c).isSome → c ≠ 0x22 ∧ c ≠ 0x5c := by
    intro c hc
    constructor
    · rintro rfl; simp [jsonHex_quote] at hc
    · rintro rfl; simp [jsonHex_backslash] at hc
  induction hb with
  | nil => simp [minifyLoop]
  | plain c s hc hback hbody ih => simp [minifyLoop, hc, hback, ih]
  | short e s he hbody ih => simp [minifyLoop, ih]
  | unicode a b c d s h₁ h₂ h₃ h₄ hbody ih =>
    simp [minifyLoop, hexPlain h₁, hexPlain h₂, hexPlain h₃, hexPlain h₄, ih]

/-! ### Numbers -/

/-- The bytes that occur in number forms. -/
def isNumChar (c : UInt8) : Bool :=
  isAlnum c || c = 0x2b || c = 0x2d || c = 0x2e || c = 0x28 || c = 0x29 || c = 0x5f

theorem isNumChar_of_alnum (h : isAlnum c = true) : isNumChar c = true := by simp [isNumChar, h]

theorem isAlnum_of_digit (h : isDigit c = true) : isAlnum c = true := by simp [isAlnum, h]

theorem isAlnum_of_xdigit (h : isXDigit c = true) : isAlnum c = true := by
  simp only [isXDigit, isAlnum, isDigit, isUpper, isLower, Bool.or_eq_true, Bool.and_eq_true,
    decide_eq_true_eq, UInt8.le_iff_toNat_le, UInt8.reduceToNat] at *
  omega

theorem isAlnum_of_toLower (h : isAlnum (toLower c) = true) : isAlnum c = true := by
  unfold toLower at h
  split at h
  · rename_i hu
    simp [isAlnum, hu]
  · exact h

theorem all_numChar_takeWhile {digit : UInt8 → Bool}
    (hdigit : ∀ c, digit c = true → isAlnum c = true) (s : Bytes) :
    ∀ c ∈ s.takeWhile digit, isNumChar c = true :=
  fun c hc => isNumChar_of_alnum (hdigit c (mem_takeWhile_imp hc))

theorem expForm_numChar {marks : Bytes} (hmarks : ∀ c ∈ marks, isAlnum c = true)
    (h : expForm marks s = true) : ∀ c ∈ s, isNumChar c = true := by
  have hall : ∀ t : Bytes, t.all isDigit = true → ∀ c ∈ t, isNumChar c = true :=
    fun t ht c hc => isNumChar_of_alnum (isAlnum_of_digit (all_eq_true.mp ht c hc))
  unfold expForm at h
  split at h
  · simp
  · rename_i m t
    simp only [Bool.and_eq_true, decide_eq_true_eq] at h
    obtain ⟨hm, h⟩ := h
    intro c hc
    rcases mem_cons.mp hc with rfl | hc
    · exact isNumChar_of_alnum (hmarks _ hm)
    · cases t with
      | nil => simp at hc
      | cons d u =>
        simp only at h
        split at h
        · rename_i hsign
          rcases mem_cons.mp hc with rfl | hc
          · rcases Bool.or_eq_true _ _ ▸ hsign with hs | hs <;>
              simp [isNumChar, of_decide_eq_true hs]
          · simp only [Bool.and_eq_true] at h
            exact hall u h.2 c hc
        · exact hall (d :: u) h c hc

theorem mantissaForm_numChar {digit : UInt8 → Bool} {marks : Bytes}
    (hdigit : ∀ c, digit c = true → isAlnum c = true) (hmarks : ∀ c ∈ marks, isAlnum c = true)
    (h : mantissaForm digit marks s = true) : ∀ c ∈ s, isNumChar c = true := by
  have hsplit := takeWhile_append_dropWhile (p := digit) (l := s)
  intro c hc
  rw [← hsplit, mem_append] at hc
  rcases hc with hc | hc
  · exact all_numChar_takeWhile hdigit s c hc
  · unfold mantissaForm at h
    split at h
    · rename_i hnil
      simp [hnil] at hc
    · rename_i d t hdrop
      rw [hdrop] at hc
      split at h
      · rename_i hdot
        simp only [Bool.and_eq_true] at h
        rcases mem_cons.mp hc with rfl | hc
        · simp [isNumChar, hdot]
        · rw [← takeWhile_append_dropWhile (p := digit) (l := t), mem_append] at hc
          rcases hc with hc | hc
          · exact all_numChar_takeWhile hdigit t c hc
          · exact expForm_numChar hmarks h.2 c hc
      · simp only [Bool.and_eq_true] at h
        exact expForm_numChar hmarks h.2 c hc

theorem all_alnum_of_map_toLower {w : Bytes} (h : s.map toLower = w)
    (hw : ∀ c ∈ w, isAlnum c = true) : ∀ c ∈ s, isNumChar c = true := by
  intro c hc
  refine isNumChar_of_alnum (isAlnum_of_toLower (hw _ ?_))
  rw [← h]
  exact mem_map_of_mem hc

theorem unsignedForm_numChar (h : unsignedForm s = true) : ∀ c ∈ s, isNumChar c = true := by
  simp only [unsignedForm, Bool.or_eq_true] at h
  rcases h with ((h | h) | h) | h
  · simp only [infForm, Bool.or_eq_true, decide_eq_true_eq] at h
    rcases h with h | h
    · exact all_alnum_of_map_toLower h (forall_of_all (by decide))
    · exact all_alnum_of_map_toLower h (forall_of_all (by decide))
  · simp only [nanForm, Bool.and_eq_true, decide_eq_true_eq] at h
    have hthree := all_alnum_of_map_toLower h.1 (forall_of_all (by decide))
    intro c hc
    rw [← take_append_drop 3 s, mem_append] at hc
    rcases hc with hc | hc
    · exact hthree c hc
    · have hrest := h.2
      split at hrest
      · rename_i hnil
        simp [hnil] at hc
      · rename_i d t hdrop
        rw [hdrop] at hc
        simp only [Bool.and_eq_true, decide_eq_true_eq] at hrest
        obtain ⟨⟨hopen, hclose⟩, hseq⟩ := hrest
        rcases mem_cons.mp hc with rfl | hc
        · simp [isNumChar, hopen]
        · have ht := dropLast_append_getLast? _ hclose
          rw [← ht, mem_append] at hc
          rcases hc with hc | hc
          · have := all_eq_true.mp hseq c hc
            simp only [Bool.or_eq_true, decide_eq_true_eq] at this
            rcases this with ha | rfl
            · exact isNumChar_of_alnum ha
            · decide
          · simp only [mem_singleton] at hc
            simp [isNumChar, hc]
  · unfold hexForm at h
    split at h
    · rename_i z x t
      simp only [Bool.and_eq_true, Bool.or_eq_true, decide_eq_true_eq] at h
      intro c hc
      rcases mem_cons.mp hc with rfl | hc
      · simp [h.1.1, isNumChar_of_alnum (show isAlnum 0x30 = true by decide)]
      · rcases mem_cons.mp hc with rfl | hc
        · rcases h.1.2 with rfl | rfl <;> decide
        · exact mantissaForm_numChar (fun _ => isAlnum_of_xdigit) (forall_of_all (by decide)) h.2 c hc
    · simp at h
  · exact mantissaForm_numChar (fun _ => isAlnum_of_digit) (forall_of_all (by decide)) h

theorem numberForm_numChar (h : numberForm s = true) : ∀ c ∈ s, isNumChar c = true := by
  unfold numberForm at h
  split at h
  · simp at h
  · rename_i d t
    split at h
    · rename_i hsign
      intro c hc
      rcases mem_cons.mp hc with rfl | hc
      · rcases Bool.or_eq_true _ _ ▸ hsign with hs | hs <;> simp [isNumChar, of_decide_eq_true hs]
      · exact unsignedForm_numChar h c hc
    · exact unsignedForm_numChar h

theorem isSpace_of_numChar (h : isNumChar c = true) : isSpace c = false := by
  by_contra hs
  simp only [isNumChar, isAlnum, isDigit, isUpper, isLower, isSpace, Bool.or_eq_true,
    Bool.and_eq_true, decide_eq_true_eq, Bool.not_eq_false, UInt8.le_iff_toNat_le,
    ← UInt8.toNat_inj] at *
  simp only [UInt8.reduceToNat] at *
  omega

/-- Text behind a value: nothing, white space, or the end of an enclosing item. -/
def Delimited (r : Bytes) : Prop := ∀ c ∈ r.head?, isSpace c = true ∨ c = 0x2c ∨ c = 0x5d ∨ c = 0x7d

theorem isNumChar_delimiter (h : isSpace c = true ∨ c = 0x2c ∨ c = 0x5d ∨ c = 0x7d) :
    isNumChar c = false := by
  rcases h with h | rfl | rfl | rfl
  · cases hc : isNumChar c with
    | false => rfl
    | true => simp [isSpace_of_numChar hc] at h
  all_goals decide

theorem strtod_eq_some (h : strtod s = some rest) :
    ∃ t, skipWs s = t ++ rest ∧ numberForm t = true := by
  unfold strtod at h
  split at h
  · simp at h
  · rename_i n hn
    simp only [some.injEq] at h
    refine ⟨(skipWs s).take (n + 1), by rw [← h, take_append_drop], ?_⟩
    have := Nat.findGreatest_of_ne_zero hn (Nat.succ_ne_zero n)
    exact this

theorem numberForm_ne_nil {t : Bytes} (h : numberForm t = true) : t ≠ [] := by
  rintro rfl
  simp [numberForm] at h

theorem strtod_of_number {t : Bytes} (ht : numberForm t = true) {r : Bytes}
    (hr : Delimited r) : strtod (t ++ r) = some r := by
  have hchars := numberForm_numChar ht
  have hskip : skipWs (t ++ r) = t ++ r := by
    cases t with
    | nil => simp [numberForm] at ht
    | cons c t =>
      exact skipWs_of_not_space (isSpace_of_numChar (hchars c (mem_cons_self ..))) _
  have hgreatest :
      Nat.findGreatest (fun n => numberForm ((t ++ r).take n) = true) (t ++ r).length =
        t.length := by
    apply le_antisymm
    · by_contra hlt
      have hspec : numberForm ((t ++ r).take (Nat.findGreatest
          (fun n => numberForm ((t ++ r).take n) = true) (t ++ r).length)) = true :=
        Nat.findGreatest_of_ne_zero (P := fun n => numberForm ((t ++ r).take n) = true) rfl
          (fun h0 => hlt (by rw [h0]; exact Nat.zero_le _))
      -- a longer number would contain the delimiter
      cases r with
      | nil =>
        have := Nat.findGreatest_le (P := fun n => numberForm ((t ++ []).take n) = true)
          (t ++ []).length
        exact hlt (by simpa using this)
      | cons d r =>
        have hd := isNumChar_delimiter (hr d (by simp))
        have hmem : d ∈ (t ++ d :: r).take
            (Nat.findGreatest (fun n => numberForm ((t ++ d :: r).take n) = true)
              (t ++ d :: r).length) := by
          rw [take_append]
          obtain ⟨k, hk⟩ := Nat.exists_eq_succ_of_ne_zero (Nat.sub_ne_zero_of_lt (not_le.mp hlt))
          rw [hk]
          simp
        rw [numberForm_numChar hspec d hmem] at hd
        simp at hd
    · exact Nat.le_findGreatest (by simp) (by simpa using ht)
  have hpos : t.length ≠ 0 := by simpa using numberForm_ne_nil ht
  obtain ⟨n, hn⟩ : ∃ n, t.length = n + 1 := ⟨t.length - 1, by omega⟩
  simp only [strtod, hskip, hgreatest, hn]
  rw [← hn, drop_left]

end Ds4Studio.Json
