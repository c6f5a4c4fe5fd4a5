import Ds4Studio.Json.Rfc

/-!
What a string literal stands for, and what `json_string` reads there. A high surrogate
that no low one follows stands for itself.
-/

namespace Ds4Studio.Json.Literal

open Bytes List

/-- A byte of the text, or a `\u` escape. -/
inductive CharUnit where
  | byte (c : UInt8)
  | escape (cp : ℕ)

/-- The units of what stands between the quotes. -/
inductive Reads : Bytes → List CharUnit → Prop
  | nil : Reads [] []
  | byte {c s us} : c ≠ 0 → c ≠ 0x22 → c ≠ 0x5c → Reads s us → Reads (c :: s) (.byte c :: us)
  | short {e c s us} : jsonShortEscape e = some c → Reads s us →
      Reads (0x5c :: e :: s) (.byte c :: us)
  | escape {a b c d cp s us} :
      (∀ rest, jsonU16 (0x5c :: 0x75 :: a :: b :: c :: d :: rest) = some (cp, rest)) →
      Reads s us → Reads (0x5c :: 0x75 :: a :: b :: c :: d :: s) (.escape cp :: us)

abbrev High (cp : ℕ) : Prop := 0xd800 ≤ cp ∧ cp ≤ 0xdbff

abbrev Low (cp : ℕ) : Prop := 0xdc00 ≤ cp ∧ cp ≤ 0xdfff

def pair (hi lo : ℕ) : ℕ := 0x10000 + (hi - 0xd800) * 1024 + (lo - 0xdc00)

/-- The text a literal stands for. -/
def meant : List CharUnit → Bytes
  | [] => []
  | .byte c :: us => c :: meant us
  | .escape hi :: .escape lo :: us =>
      if High hi ∧ Low lo then utf8Put (pair hi lo) ++ meant us
      else utf8Put hi ++ meant (.escape lo :: us)
  | .escape cp :: us => utf8Put cp ++ meant us

/-- What the loop of `json_string` appends. -/
def decoded : List CharUnit → Bytes
  | [] => []
  | .byte c :: us => c :: decoded us
  | .escape hi :: .escape lo :: us =>
      if High hi then (if Low lo then utf8Put (pair hi lo) else utf8Put hi) ++ decoded us
      else utf8Put hi ++ decoded (.escape lo :: us)
  | .escape cp :: us => utf8Put cp ++ decoded us

/-- The escape behind a high surrogate is a low one. -/
def Follows : CharUnit → CharUnit → Prop
  | .escape hi, .escape lo => High hi → Low lo
  | _, _ => True

variable {s b rest : Bytes} {us : List CharUnit} {cp : ℕ}

theorem reads_high {u : Bytes} (hu : ∀ c ∈ u, 0x80 ≤ c) (h : Reads s us) :
    ∃ us', Reads (u ++ s) us' := by
  induction u with
  | nil => exact ⟨us, h⟩
  | cons c u ih =>
    obtain ⟨us', hus'⟩ := ih fun d hd => hu d (mem_cons_of_mem c hd)
    have hc := hu c mem_cons_self
    refine ⟨_, .byte ?_ ?_ ?_ hus'⟩
    all_goals
      rintro rfl
      exact absurd hc (by decide)

theorem reads_of_chars (h : Chars b) : ∃ us, Reads b us := by
  induction h with
  | nil => exact ⟨_, .nil⟩
  | unescaped cp s hcp hlow hquote hback _ ih =>
    obtain ⟨us, hus⟩ := ih
    rcases utf8Put_cases hcp with ⟨hascii, hput⟩ | ⟨-, -, hbytes⟩
    · have hnat := toNat_of_ascii hascii
      rw [hput]
      refine ⟨_, .byte ?_ ?_ ?_ hus⟩
      all_goals
        intro heq
        rw [heq] at hnat
        simp at hnat
        omega
    · exact reads_high hbytes hus
  | short e s he _ ih =>
    obtain ⟨us, hus⟩ := ih
    obtain ⟨c, hc⟩ := Option.isSome_iff_exists.mp (short_mem he)
    exact ⟨_, .short hc hus⟩
  | unicode a b c d s ha hb hc hd _ ih =>
    obtain ⟨us, hus⟩ := ih
    obtain ⟨cp, hcp⟩ := jsonU16_of_hex a b c d (jsonHex_of_xdigit ha) (jsonHex_of_xdigit hb)
      (jsonHex_of_xdigit hc) (jsonHex_of_xdigit hd)
    exact ⟨_, .escape hcp hus⟩

/-- The text of one unit. -/
def CharUnit.put : CharUnit → Bytes
  | .byte c => [c]
  | .escape cp => utf8Put cp

theorem alone {u : CharUnit} (h : ∀ hi lo us', u = .escape hi → us = .escape lo :: us' → ¬High hi) :
    decoded (u :: us) = u.put ++ decoded us ∧ meant (u :: us) = u.put ++ meant us ∧
      ((u :: us).IsChain Follows ↔ us.IsChain Follows) := by
  cases us with
  | nil => cases u <;> simp [decoded, meant, CharUnit.put]
  | cons v us =>
    rw [isChain_cons_cons]
    cases u with
    | byte c => exact ⟨rfl, rfl, and_iff_right trivial⟩
    | escape cp =>
      cases v with
      | byte c => exact ⟨rfl, rfl, and_iff_right trivial⟩
      | escape lo =>
        have hhigh := h cp lo us rfl rfl
        rw [decoded, meant, if_neg hhigh, if_neg fun hpair => hhigh hpair.1]
        exact ⟨rfl, rfl, and_iff_right fun hcp => absurd hcp hhigh⟩

theorem alone_escape (h : ¬High cp) (us : List CharUnit) :
    decoded (.escape cp :: us) = utf8Put cp ++ decoded us ∧
      ((.escape cp :: us).IsChain Follows ↔ us.IsChain Follows) := by
  obtain ⟨hdecoded, -, hchain⟩ := @alone us (.escape cp) fun _ _ _ hu _ hhigh => by
    cases hu
    exact h hhigh
  exact ⟨hdecoded, hchain⟩

theorem Reads.jsonU16_none (h : Reads s us) (hus : ∀ lo us', us ≠ .escape lo :: us')
    (rest : Bytes) : jsonU16 (s ++ 0x22 :: rest) = none := by
  cases hread : jsonU16 (s ++ 0x22 :: rest) with
  | none => rfl
  | some r =>
    obtain ⟨_, _, _, _, heq, -⟩ := jsonU16_eq_some hread
    cases h with
    | nil => cases heq
    | byte _ _ hback _ => exact absurd (cons.inj heq).1 hback
    | short he _ =>
      rw [(cons.inj (cons.inj heq).2).1] at he
      simp [jsonShortEscape_u] at he
    | escape _ _ => exact absurd rfl (hus _ _)

theorem Reads.loop (h : Reads b us) (rest : Bytes) {fuel : ℕ} (hfuel : b.length < fuel) :
    jsonStringLoop fuel (b ++ 0x22 :: rest) = some (decoded us, rest) := by
  have hslash : (0x5c : UInt8) ≠ 0x22 := by decide
  induction fuel generalizing b us with
  | zero => omega
  | succ fuel ih =>
    cases h with
    | nil => simp [jsonStringLoop, decoded]
    | byte _ hquote hback h =>
      rw [cons_append, jsonStringLoop_unit hquote (jsonStringUnit_plain hback _),
        ih h (by simpa using hfuel)]
      rfl
    | short hc h =>
      simp only [length_cons] at hfuel
      simp only [cons_append]
      rw [jsonStringLoop_unit hslash (jsonStringUnit_short hc _), ih h (by omega)]
      rfl
    | @escape h₀ h₁ h₂ h₃ cp s us hcp h =>
      simp only [length_cons] at hfuel
      simp only [cons_append]
      by_cases hfirst : High cp → ∀ lo us', us ≠ .escape lo :: us'
      · have hunit : ∀ behind, (High cp → jsonU16 behind = none) → jsonStringUnit 0x5c
            (0x75 :: h₀ :: h₁ :: h₂ :: h₃ :: behind) = some (utf8Put cp, behind) := by
          intro behind hnone
          unfold jsonStringUnit
          simp only [if_true, hcp]
          split_ifs with hhigh
          · rw [hnone hhigh]
          · rfl
        rw [jsonStringLoop_unit hslash (hunit _ fun hhigh => h.jsonU16_none (hfirst hhigh) rest),
          ih h (by omega), (alone fun _ _ _ hu hus hhigh => ?_).1]
        · rfl
        · cases hu
          exact hfirst hhigh _ _ hus
      · push Not at hfirst
        obtain ⟨hhigh, lo, us', rfl⟩ := hfirst
        cases h with
        | @escape l₀ l₁ l₂ l₃ _ _ _ hlo h =>
          simp only [length_cons] at hfuel
          have hunit : ∀ behind, jsonStringUnit 0x5c (0x75 :: h₀ :: h₁ :: h₂ :: h₃ :: 0x5c ::
              0x75 :: l₀ :: l₁ :: l₂ :: l₃ :: behind) =
              some (if Low lo then utf8Put (pair cp lo) else utf8Put cp, behind) := by
            intro behind
            unfold jsonStringUnit
            simp only [if_true, hcp, hlo]
            rw [if_pos hhigh]
            split_ifs
            · rfl
            · rfl
          simp only [cons_append]
          rw [jsonStringLoop_unit hslash (hunit _), ih h (by omega), decoded, if_pos hhigh]
          rfl

theorem utf8Put_length (cp : ℕ) : 0 < (utf8Put cp).length ∧
    (cp ≤ 0xffff → (utf8Put cp).length ≤ 3) ∧ (0xffff < cp → (utf8Put cp).length = 4) := by
  unfold utf8Put
  split_ifs
  all_goals
    refine ⟨by simp, fun _ => ?_, fun _ => ?_⟩
    all_goals
      simp
      try omega

theorem decoded_length_lt (us : List CharUnit) (h : ∀ vs : List CharUnit, vs.length ≤ us.length →
      (decoded vs).length ≤ (meant vs).length) (cp : ℕ) :
    (decoded us).length < (meant (.escape cp :: us)).length := by
  have hpos := (utf8Put_length cp).1
  have hsame := h us le_rfl
  unfold meant
  split
  · rename_i heq
    cases heq
  · rename_i heq
    cases heq
  · rename_i hi lo us' heq
    obtain ⟨hcp, rfl⟩ := cons.inj heq
    cases hcp
    split_ifs with hpair
    · have hlow : ¬High lo := by omega
      have hfour := (utf8Put_length (pair cp lo)).2.2 (by unfold pair; omega)
      have hthree := (utf8Put_length lo).2.1 (by omega)
      have hrest := h us' (Nat.le_succ _)
      rw [(alone_escape hlow us').1, length_append, length_append]
      omega
    · rw [length_append]
      omega
  · rename_i heq
    obtain ⟨hcp, rfl⟩ := cons.inj heq
    cases hcp
    rw [length_append]
    omega

theorem decoded_cases (us : List CharUnit) :
    (us.IsChain Follows ∧ decoded us = meant us) ∨
      (¬us.IsChain Follows ∧ (decoded us).length < (meant us).length) := by
  induction hlen : us.length using Nat.strong_induction_on generalizing us with
  | h n ih =>
    have hle : ∀ vs : List CharUnit, vs.length < n → (decoded vs).length ≤ (meant vs).length := by
      intro vs hvs
      rcases ih _ hvs vs rfl with ⟨-, hsame⟩ | ⟨-, hlt⟩
      · rw [hsame]
      · exact hlt.le
    cases us with
    | nil => exact .inl ⟨.nil, rfl⟩
    | cons u us =>
      rw [length_cons] at hlen
      by_cases hlead : ∃ hi lo us', u = .escape hi ∧ us = .escape lo :: us' ∧ High hi
      · obtain ⟨hi, lo, us', rfl, rfl, hhigh⟩ := hlead
        rw [length_cons] at hlen
        rw [decoded, meant, if_pos hhigh, isChain_cons_cons]
        by_cases hlow : Low lo
        · rw [if_pos hlow, if_pos ⟨hhigh, hlow⟩, (alone_escape (by omega) us').2, length_append,
            length_append, append_right_inj]
          rcases ih us'.length (by omega) us' rfl with ⟨hchain, hsame⟩ | ⟨hchain, hlt⟩
          · exact .inl ⟨⟨fun _ => hlow, hchain⟩, hsame⟩
          · exact .inr ⟨fun hboth => hchain hboth.2, by omega⟩
        · have hlt := decoded_length_lt us' (fun vs hvs => hle vs (by omega)) lo
          rw [if_neg hlow, if_neg fun hpair => hlow hpair.2, length_append, length_append]
          exact .inr ⟨fun hboth => hlow (hboth.1 hhigh), by omega⟩
      · obtain ⟨hdecoded, hmeant, hchains⟩ := alone fun hi lo us' hu hus hhigh =>
          hlead ⟨hi, lo, us', hu, hus, hhigh⟩
        rw [hdecoded, hmeant, hchains, length_append, length_append, append_right_inj]
        rcases ih us.length (by omega) us rfl with hkept | ⟨hchain, hlt⟩
        · exact .inl hkept
        · exact .inr ⟨hchain, by omega⟩

theorem zero_mem_utf8Put : 0 ∈ utf8Put cp ↔ cp = 0 := by
  have hor : ∀ k n : ℕ, k % 256 ≠ 0 → (0 : UInt8) ≠ (k ||| n).toUInt8 := by
    intro k n hk h
    have hmod := congrArg UInt8.toNat h
    rw [UInt8.toNat_ofNat', Nat.or_mod_two_pow (n := 8)] at hmod
    exact hk (Nat.or_eq_zero_iff.mp hmod.symm).1
  unfold utf8Put
  split_ifs with hascii
  · have hnat := toNat_of_ascii hascii
    rw [mem_singleton, ← UInt8.toNat_inj, hnat]
    exact eq_comm
  all_goals
    simp only [mem_cons, not_mem_nil, or_false, hor _ _ (by decide : 0xc0 % 256 ≠ 0),
      hor _ _ (by decide : 0xe0 % 256 ≠ 0), hor _ _ (by decide : 0xf0 % 256 ≠ 0),
      hor _ _ (by decide : 0x80 % 256 ≠ 0), false_iff]
    omega

theorem zero_mem_meant (h : Reads b us) : 0 ∈ meant us ↔ .escape 0 ∈ us := by
  fun_induction meant us generalizing b with
  | case1 => simp
  | case2 c us ih =>
    have hc : ∃ s, Reads s us ∧ 0 ≠ c := by
      cases h with
      | byte hc _ _ h => exact ⟨_, h, hc.symm⟩
      | short he h =>
        refine ⟨_, h, ?_⟩
        rintro rfl
        unfold jsonShortEscape at he
        split_ifs at he
        all_goals cases he
    obtain ⟨s, h, hc⟩ := hc
    simp [ih h, hc]
  | case3 hi lo us hpair ih =>
    cases h with
    | escape _ h =>
      cases h with
      | escape _ h =>
        have hne : pair hi lo ≠ 0 ∧ 0 ≠ hi ∧ 0 ≠ lo := by
          unfold pair
          omega
        simp [zero_mem_utf8Put, hne, ih h]
  | case4 hi lo us hpair ih =>
    cases h with
    | escape _ h => simp [zero_mem_utf8Put, ih h, eq_comm]
  | case5 cp us hother ih =>
    cases h with
    | escape _ h => simp [zero_mem_utf8Put, ih h, eq_comm]

theorem jsonString_reads (h : Reads b us) (rest : Bytes) :
    jsonString (0x22 :: b ++ 0x22 :: rest) = some (cstr (decoded us), rest) := by
  have hfuel : b.length < (b ++ 0x22 :: rest).length + 1 := by
    rw [length_append]
    omega
  simp only [jsonString, cons_append, skipWs_of_not_space (show isSpace 0x22 = false by decide),
    if_true, h.loop rest hfuel, Option.map_some]

/-- No escape is that of a zero byte, and every escape behind a high surrogate is a low one. -/
def Kept (us : List CharUnit) : Prop := .escape 0 ∉ us ∧ us.IsChain Follows

/-- A literal is read as it is meant exactly where its escapes are kept, and what the
writer escapes is read back. -/
theorem jsonString_meant (b v rest : Bytes) :
    (Chars b → (∃ us, Reads b us) ∧ ∀ us, Reads b us →
      (jsonString (0x22 :: b ++ 0x22 :: rest) = some (meant us, rest) ↔ Kept us)) ∧
    (0 ∉ v → jsonString (jsonEscape v ++ rest) = some (v, rest)) := by
  refine ⟨fun hb => ⟨reads_of_chars hb, fun us h => ?_⟩, fun hv => jsonString_jsonEscape hv rest⟩
  rw [jsonString_reads h, Option.some.injEq, Prod.mk.injEq, and_iff_left rfl, Kept,
    ← zero_mem_meant h]
  rcases decoded_cases us with ⟨hchain, hsame⟩ | ⟨hchain, hlt⟩
  · rw [hsame, and_iff_left hchain]
    exact ⟨fun heq => heq ▸ zero_not_mem_cstr _, cstr_eq_self⟩
  · refine iff_of_false (fun heq => ?_) fun hkept => hchain hkept.2
    have hle : (cstr (decoded us)).length ≤ (decoded us).length := ( takeWhile_prefix _).length_le
    rw [heq] at hle
    omega

/-- The letter behind a lone surrogate is lost. -/
theorem jsonString_loses : ¬ ∀ (b : Bytes) (us : List CharUnit) (rest : Bytes), Chars b →
    Reads b us → jsonString (0x22 :: b ++ 0x22 :: rest) = some (meant us, rest) := by
  intro h
  have hread := h _ [.escape 0xd800, .escape 0x41] [] (.unicode 0x64 0x38 0x30 0x30 _ rfl rfl rfl rfl
    (.unicode 0x30 0x30 0x34 0x31 _ rfl rfl rfl rfl .nil))
    (.escape (fun _ => rfl) (.escape (fun _ => rfl) .nil))
  revert hread
  decide

end Ds4Studio.Json.Literal
