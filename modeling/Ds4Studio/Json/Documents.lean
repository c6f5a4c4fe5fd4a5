import Ds4Studio.Json.Printed

/-!
JSON texts with what they say: the strings decoded to UTF-8, the elements and members in their
order. Escaped surrogates come in pairs only.
-/

namespace Ds4Studio.Json

open Bytes

inductive Doc where
  /-- a number or one of the three words -/
  | atom
  | string (text : Bytes)
  | array (elements : List Doc)
  | object (members : List (Bytes × Doc))

/-! ### Strings -/

def hex4 (a b c d : UInt8) : Option ℕ :=
  match jsonHex a, jsonHex b, jsonHex c, jsonHex d with
  | some h₃, some h₂, some h₁, some h₀ => some (((h₃ * 16 + h₂) * 16 + h₁) * 16 + h₀)
  | _, _, _, _ => none

/-- The code point of a pair of surrogates. -/
def surrogatePair (high low : ℕ) : ℕ := 0x10000 + (high - 0xd800) * 0x400 + (low - 0xdc00)

/-- What stands between the quotes, and the text that it is read to. -/
inductive Decodes : Bytes → Bytes → Prop
  | nil : Decodes [] []
  | unescaped {cp : ℕ} {s t : Bytes} : Scalar cp → 0x20 ≤ cp → cp ≠ 0x22 → cp ≠ 0x5c →
      Decodes s t → Decodes (utf8Put cp ++ s) (utf8Put cp ++ t)
  | short {e c : UInt8} {s t : Bytes} : jsonShortEscape e = some c → Decodes s t →
      Decodes (0x5c :: e :: s) (c :: t)
  | unicode {a b c d : UInt8} {cp : ℕ} {s t : Bytes} : hex4 a b c d = some cp →
      isSurrogate cp = false → Decodes s t →
      Decodes (0x5c :: 0x75 :: a :: b :: c :: d :: s) (utf8Put cp ++ t)
  | pair {a b c d a' b' c' d' : UInt8} {high low : ℕ} {s t : Bytes} :
      hex4 a b c d = some high → 0xd800 ≤ high → high ≤ 0xdbff →
      hex4 a' b' c' d' = some low → 0xdc00 ≤ low → low ≤ 0xdfff → Decodes s t →
      Decodes (0x5c :: 0x75 :: a :: b :: c :: d :: 0x5c :: 0x75 :: a' :: b' :: c' :: d' :: s)
        (utf8Put (surrogatePair high low) ++ t)

theorem jsonHex_lt {c : UInt8} {n : ℕ} (h : jsonHex c = some n) : n < 16 := by
  unfold jsonHex at h
  simp only [isDigit, Bool.and_eq_true, decide_eq_true_eq, UInt8.le_iff_toNat_le,
    UInt8.reduceToNat] at h
  split_ifs at h <;>
    · have hn := Option.some.inj h
      omega

theorem hex4_eq_some {a b c d : UInt8} {n : ℕ} (h : hex4 a b c d = some n) :
    n < 0x10000 ∧ (jsonHex a).isSome ∧ (jsonHex b).isSome ∧ (jsonHex c).isSome ∧
      (jsonHex d).isSome := by
  unfold hex4 at h
  split at h
  · rename_i h₃ h₂ h₁ h₀ e₃ e₂ e₁ e₀
    have := jsonHex_lt e₃
    have := jsonHex_lt e₂
    have := jsonHex_lt e₁
    have := jsonHex_lt e₀
    have hn := Option.some.inj h
    refine ⟨by omega, ?_, ?_, ?_, ?_⟩ <;> simp only [e₃, e₂, e₁, e₀, Option.isSome_some]
  · cases h

theorem Scalar.of_not_surrogate {n : ℕ} (h : isSurrogate n = false) (hn : n < 0x10000) :
    Scalar n := by
  simp only [isSurrogate, Bool.and_eq_false_iff, decide_eq_false_iff_not] at h
  unfold Scalar
  omega

theorem Scalar.surrogatePair {high low : ℕ} (hhigh : 0xd800 ≤ high) (hhigh' : high ≤ 0xdbff)
    (hlow : 0xdc00 ≤ low) (hlow' : low ≤ 0xdfff) : Scalar (surrogatePair high low) := by
  unfold Scalar Json.surrogatePair
  omega

theorem jsonShortEscape_ascii {e c : UInt8} (h : jsonShortEscape e = some c) : c < 0x80 := by
  unfold jsonShortEscape at h
  split_ifs at h <;> cases h <;> decide

variable {s t : Bytes}

theorem Decodes.utf8 (h : Decodes s t) : Utf8 t := by
  induction h with
  | nil => exact .nil
  | unescaped hcp _ _ _ _ ih => exact .char _ _ hcp ih
  | short he _ ih => exact Utf8.cons (jsonShortEscape_ascii he) ih
  | unicode hcp hs _ ih => exact .char _ _ (.of_not_surrogate hs (hex4_eq_some hcp).1) ih
  | pair _ hhigh hhigh' _ hlow hlow' _ ih =>
    exact .char _ _ (.surrogatePair hhigh hhigh' hlow hlow') ih

/-! ### Values -/

/-- Items with commas between them, and what closes them. -/
inductive Items {δ : Type} (close : UInt8) (inside : δ → Bytes → Prop) : List δ → Bytes → Prop
  | last {d : δ} {s ws : Bytes} : inside d s → Ws ws → Items close inside [d] (s ++ (ws ++ [close]))
  | cons {d : δ} {ds : List δ} {s ws ws' t : Bytes} : inside d s → Ws ws → Ws ws' →
      Items close inside ds t → Items close inside (d :: ds) (s ++ (ws ++ 0x2c :: (ws' ++ t)))

/-- What follows an opening bracket or brace, the closing one included. -/
inductive Enclosed {δ : Type} (close : UInt8) (inside : δ → Bytes → Prop) : List δ → Bytes → Prop
  | empty {ws : Bytes} : Ws ws → Enclosed close inside [] (ws ++ [close])
  | items {ds : List δ} {ws t : Bytes} : Ws ws → Items close inside ds t →
      Enclosed close inside ds (ws ++ t)

/-- The key, the colon and the value of a member. -/
inductive Member (inside : Doc → Bytes → Prop) : Bytes × Doc → Bytes → Prop
  | mk {key b s ws ws' : Bytes} {d : Doc} : Decodes b key → Ws ws → Ws ws' → inside d s →
      Member inside (key, d) (0x22 :: (b ++ 0x22 :: (ws ++ 0x3a :: (ws' ++ s))))

/-- The values without brackets and braces. -/
inductive Leaf : Doc → Bytes → Prop
  | string {b text : Bytes} : Decodes b text → Leaf (.string text) (0x22 :: (b ++ [0x22]))
  | word {w : Bytes} : w ∈ words → Leaf .atom w
  | number {t : Bytes} : Number t → Leaf .atom t

inductive Container (inside : Doc → Bytes → Prop) : Doc → Bytes → Prop
  | array {ds : List Doc} {t : Bytes} : Enclosed 0x5d inside ds t →
      Container inside (.array ds) (0x5b :: t)
  | object {ms : List (Bytes × Doc)} {t : Bytes} : Enclosed 0x7d (Member inside) ms t →
      Container inside (.object ms) (0x7b :: t)

/-- The texts of a value with at most this many levels of brackets and braces. -/
def Written : ℕ → Doc → Bytes → Prop
  | 0 => Leaf
  | levels + 1 => fun d s => Leaf d s ∨ Container (Written levels) d s

/-- A JSON text: one value with white space around it. -/
def IsText (levels : ℕ) (d : Doc) (s : Bytes) : Prop :=
  ∃ ws value ws', Ws ws ∧ Ws ws' ∧ Written levels d value ∧ s = ws ++ (value ++ ws')

/-! ### What is inside, and where it starts -/

theorem Items.written {δ : Type} {close : UInt8} {inside : δ → Bytes → Prop} {ds : List δ}
    (h : Items close inside ds t) : ∀ d ∈ ds, ∃ s, inside d s := by
  induction h with
  | last hd _ =>
    intro d hmem
    rw [List.mem_singleton.mp hmem]
    exact ⟨_, hd⟩
  | cons hd _ _ _ ih =>
    intro d hmem
    rcases List.mem_cons.mp hmem with rfl | hmem
    · exact ⟨_, hd⟩
    · exact ih d hmem

theorem Enclosed.written {δ : Type} {close : UInt8} {inside : δ → Bytes → Prop} {ds : List δ}
    (h : Enclosed close inside ds t) : ∀ d ∈ ds, ∃ s, inside d s := by
  cases h with
  | empty _ => exact fun d hd => (nomatch hd)
  | items _ hitems => exact hitems.written

/-- White space of JSON. -/
def isWs (c : UInt8) : Bool := c = 0x20 || c = 0x09 || c = 0x0a || c = 0x0d

theorem ws_iff : Ws s ↔ ∀ c ∈ s, isWs c = true := by simp [Ws, isWs, or_assoc]

/-- The first letter of a value tells what follows. -/
inductive Head : Doc → UInt8 → Prop
  | string (text : Bytes) : Head (.string text) 0x22
  | word {c : UInt8} : c = 0x74 ∨ c = 0x66 ∨ c = 0x6e → Head .atom c
  | number {c : UInt8} : isDigit c = true ∨ c = 0x2d → Head .atom c
  | array (ds : List Doc) : Head (.array ds) 0x5b
  | object (ms : List (Bytes × Doc)) : Head (.object ms) 0x7b

variable {d : Doc}

theorem Leaf.head (h : Leaf d s) : ∃ c t, s = c :: t ∧ Head d c := by
  cases h with
  | string _ => exact ⟨_, _, rfl, .string _⟩
  | word hw =>
    obtain ⟨c, t, hs, hc⟩ := word_head hw
    exact ⟨c, t, hs, .word hc⟩
  | number hn =>
    obtain ⟨-, c, t, hs, hc⟩ := hn.form
    exact ⟨c, t, hs, .number hc⟩

variable {levels : ℕ}

theorem Written.head (h : Written levels d s) : ∃ c t, s = c :: t ∧ Head d c := by
  cases levels with
  | zero => exact Leaf.head h
  | succ levels =>
    rcases h with hleaf | hcontainer
    · exact hleaf.head
    · cases hcontainer with
      | array _ => exact ⟨_, _, rfl, .array _⟩
      | object _ => exact ⟨_, _, rfl, .object _⟩

theorem Written.head_cons {c : UInt8} (h : Written levels d (c :: t)) : Head d c := by
  obtain ⟨_, _, heq, hc⟩ := h.head
  obtain ⟨rfl, -⟩ := List.cons.inj heq
  exact hc

theorem Written.leaf_or (h : Written levels d s) :
    Leaf d s ∨ ∃ n, levels = n + 1 ∧ Container (Written n) d s := by
  cases levels with
  | zero => exact .inl h
  | succ levels =>
    rcases h with h | h
    · exact .inl h
    · exact .inr ⟨levels, rfl, h⟩

theorem written_string_iff {text : Bytes} :
    Written levels (.string text) s ↔ ∃ b, Decodes b text ∧ s = 0x22 :: (b ++ [0x22]) := by
  constructor
  · intro h
    rcases h.leaf_or with hleaf | ⟨_, -, hcontainer⟩
    · cases hleaf with
      | string hb => exact ⟨_, hb, rfl⟩
    · cases hcontainer
  · rintro ⟨b, hb, rfl⟩
    cases levels with
    | zero => exact .string hb
    | succ levels => exact .inl (.string hb)

theorem written_array_iff {ds : List Doc} :
    Written (levels + 1) (.array ds) s ↔
      ∃ t, s = 0x5b :: t ∧ Enclosed 0x5d (Written levels) ds t := by
  constructor
  · rintro (hleaf | hcontainer)
    · cases hleaf
    · cases hcontainer
      exact ⟨_, rfl, by assumption⟩
  · rintro ⟨t, rfl, ht⟩
    exact .inr (.array ht)

theorem written_object_iff {ms : List (Bytes × Doc)} :
    Written (levels + 1) (.object ms) s ↔
      ∃ t, s = 0x7b :: t ∧ Enclosed 0x7d (Member (Written levels)) ms t := by
  constructor
  · rintro (hleaf | hcontainer)
    · cases hleaf
    · cases hcontainer
      exact ⟨_, rfl, by assumption⟩
  · rintro ⟨t, rfl, ht⟩
    exact .inr (.object ht)

/-- Neither white space nor what closes an array or an object. -/
def Opens (c : UInt8) : Prop := isWs c = false ∧ c ≠ 0x5d ∧ c ≠ 0x7d

theorem Head.opens {c : UInt8} (h : Head d c) : Opens c := by
  cases h with
  | string _ | array _ | object _ => exact ⟨rfl, by decide, by decide⟩
  | word hc => rcases hc with rfl | rfl | rfl <;> exact ⟨rfl, by decide, by decide⟩
  | number hc =>
    rcases hc with hc | rfl
    · simp only [Opens, isWs, isDigit, Bool.and_eq_true, decide_eq_true_eq, UInt8.le_iff_toNat_le,
        Bool.or_eq_false_iff, decide_eq_false_iff_not, ← UInt8.toNat_inj, ne_eq] at hc ⊢
      simp only [UInt8.reduceToNat] at hc ⊢
      omega
    · exact ⟨rfl, by decide, by decide⟩

theorem Head.eq_string (h : Head d 0x22) : ∃ text, d = .string text := by
  cases h with
  | string text => exact ⟨text, rfl⟩
  | word hc => simp at hc
  | number hc => exact absurd hc (by decide)

theorem Head.eq_array (h : Head d 0x5b) : ∃ ds, d = .array ds := by
  cases h with
  | array ds => exact ⟨ds, rfl⟩
  | word hc => simp at hc
  | number hc => exact absurd hc (by decide)

theorem Head.eq_object (h : Head d 0x7b) : ∃ ms, d = .object ms := by
  cases h with
  | object ms => exact ⟨ms, rfl⟩
  | word hc => simp at hc
  | number hc => exact absurd hc (by decide)

end Ds4Studio.Json
