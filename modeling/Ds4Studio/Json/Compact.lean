import Ds4Studio.Json.Lexis
import Ds4Studio.Lib.Search

/-!
The values the scanner accepts, as a grammar that pairs a text with its compact
form, the same tokens without white space in between. The scanner skips a value
exactly when the grammar derives it, the minifier computes the compact form, and
a compact form stays one when a letter in its strings is written as an escape.
-/

namespace Ds4Studio.Json

open Bytes List Option Search

inductive Phrase
  | value | elements | members

def words : List Bytes := [str "true", str "false", str "null"]

def Spaces (ws : Bytes) : Prop := ∀ c ∈ ws, isSpace c = true

/-- Elements and members are what follows an opening bracket or brace that is
not closed at once, the closing one included. -/
inductive Text : Phrase → ℕ → Bytes → Bytes → Prop
  | string {k : ℕ} {b : Bytes} : Body b →
      Text .value k (0x22 :: b ++ [0x22]) (0x22 :: b ++ [0x22])
  | word {k : ℕ} {w : Bytes} : w ∈ words → Text .value k w w
  | number {k : ℕ} {t : Bytes} : numberForm t = true → (∀ w ∈ words, ¬ w <+: t) →
      Text .value k t t
  | emptyArray {k : ℕ} {ws : Bytes} : Spaces ws →
      Text .value (k + 1) (0x5b :: ws ++ [0x5d]) [0x5b, 0x5d]
  | array {k : ℕ} {ws s c : Bytes} : Spaces ws → Text .elements k s c →
      Text .value (k + 1) (0x5b :: ws ++ s) (0x5b :: c)
  | emptyObject {k : ℕ} {ws : Bytes} : Spaces ws →
      Text .value (k + 1) (0x7b :: ws ++ [0x7d]) [0x7b, 0x7d]
  | object {k : ℕ} {ws s c : Bytes} : Spaces ws → Text .members k s c →
      Text .value (k + 1) (0x7b :: ws ++ s) (0x7b :: c)
  | lastElement {k : ℕ} {s c ws : Bytes} : Text .value k s c → Spaces ws →
      Text .elements k (s ++ (ws ++ [0x5d])) (c ++ [0x5d])
  | element {k : ℕ} {s c ws ws' t d : Bytes} : Text .value k s c → Spaces ws → Spaces ws' →
      Text .elements k t d →
      Text .elements k (s ++ (ws ++ 0x2c :: (ws' ++ t))) (c ++ 0x2c :: d)
  | lastMember {k : ℕ} {b ws ws' s c ws'' : Bytes} : Body b → Spaces ws → Spaces ws' →
      Text .value k s c → Spaces ws'' →
      Text .members k (0x22 :: b ++ 0x22 :: (ws ++ 0x3a :: (ws' ++ (s ++ (ws'' ++ [0x7d])))))
        (0x22 :: b ++ 0x22 :: 0x3a :: (c ++ [0x7d]))
  | member {k : ℕ} {b ws ws' s c ws'' ws₃ t d : Bytes} : Body b → Spaces ws → Spaces ws' →
      Text .value k s c → Spaces ws'' → Spaces ws₃ → Text .members k t d →
      Text .members k
        (0x22 :: b ++ 0x22 :: (ws ++ 0x3a :: (ws' ++ (s ++ (ws'' ++ 0x2c :: (ws₃ ++ t))))))
        (0x22 :: b ++ 0x22 :: 0x3a :: (c ++ 0x2c :: d))

theorem spaces_nil : Spaces [] := by simp [Spaces]

variable {ws : Bytes}

theorem skipWs_spaces (h : Spaces ws) (s : Bytes) : skipWs (ws ++ s) = skipWs s := by
  induction ws with
  | nil => rfl
  | cons c ws ih =>
    rw [cons_append, skipWs_of_space (h c (by simp)), ih fun d hd => h d (by simp [hd])]

theorem exists_spaces (s : Bytes) : ∃ ws, s = ws ++ skipWs s ∧ Spaces ws := skipWs_split s

/-! ### The minifier -/

variable {s : Bytes}

theorem minifyLoop_plain (h : ∀ c ∈ s, c ≠ 0x22 ∧ isSpace c = false) (r : Bytes) :
    minifyLoop false false (s ++ r) = s ++ minifyLoop false false r := by
  induction s with
  | nil => rfl
  | cons c s ih =>
    obtain ⟨hq, hs⟩ := h c (by simp)
    simp [minifyLoop, hq, hs, ih fun d hd => h d (by simp [hd])]

theorem minifyLoop_spaces (h : Spaces ws) (r : Bytes) :
    minifyLoop false false (ws ++ r) = minifyLoop false false r := by
  induction ws with
  | nil => rfl
  | cons c ws ih =>
    have hc := h c (by simp)
    have hq : c ≠ 0x22 := by
      rintro rfl
      simp [isSpace] at hc
    simp [minifyLoop, hq, hc, ih fun d hd => h d (by simp [hd])]

theorem minifyLoop_token {c : UInt8} (hq : c ≠ 0x22) (hs : isSpace c = false) (r : Bytes) :
    minifyLoop false false (c :: r) = c :: minifyLoop false false r :=
  minifyLoop_plain (s := [c]) (by simp [hq, hs]) r

theorem minifyLoop_quoted {b : Bytes} (hb : Body b) (r : Bytes) :
    minifyLoop false false (0x22 :: b ++ 0x22 :: r) =
      0x22 :: b ++ 0x22 :: minifyLoop false false r := by
  simp [minifyLoop, minifyLoop_body hb]

theorem numChar_plain (h : numberForm s = true) : ∀ c ∈ s, c ≠ 0x22 ∧ isSpace c = false := by
  intro c hc
  have hnum := numberForm_numChar h c hc
  refine ⟨?_, isSpace_of_numChar hnum⟩
  rintro rfl
  simp [isNumChar, isAlnum, isDigit, isUpper, isLower] at hnum

theorem words_numChar {w : Bytes} (hw : w ∈ words) : ∀ c ∈ w, isNumChar c = true := by
  have hall : ∀ w ∈ words, w.all isNumChar = true := by decide
  exact List.all_eq_true.mp (hall w hw)

theorem lt_not_numChar : ¬ isNumChar 0x3c = true := by decide

theorem words_plain {w : Bytes} (hw : w ∈ words) : ∀ c ∈ w, c ≠ 0x22 ∧ isSpace c = false := by
  have hall : ∀ w ∈ words, w.all (fun c => c ≠ 0x22 ∧ isSpace c = false) = true := by decide
  exact forall_of_all (hall w hw)

variable {p : Phrase} {c : Bytes} {k : ℕ}

theorem minifyLoop_text (h : Text p k s c) (r : Bytes) :
    minifyLoop false false (s ++ r) = c ++ minifyLoop false false r := by
  induction h generalizing r with
  | string hb => simpa using minifyLoop_quoted hb r
  | word hw => exact minifyLoop_plain (words_plain hw) r
  | number ht => exact minifyLoop_plain (numChar_plain ht) r
  | emptyArray hws => simp [minifyLoop_token, minifyLoop_spaces hws, isSpace]
  | array hws _ ih => simp [minifyLoop_token, minifyLoop_spaces hws, isSpace, ih]
  | emptyObject hws => simp [minifyLoop_token, minifyLoop_spaces hws, isSpace]
  | object hws _ ih => simp [minifyLoop_token, minifyLoop_spaces hws, isSpace, ih]
  | lastElement _ hws ih => simp [ih, minifyLoop_token, minifyLoop_spaces hws, isSpace]
  | element _ hws hws' _ ih iht =>
    simp [ih, iht, minifyLoop_token, minifyLoop_spaces hws, minifyLoop_spaces hws', isSpace]
  | @lastMember k b ws ws' s c ws'' hb hws hws' _ hws'' ih =>
    have := minifyLoop_quoted hb (ws ++ 0x3a :: (ws' ++ (s ++ (ws'' ++ 0x7d :: r))))
    simpa [ih, minifyLoop_token, minifyLoop_spaces hws, minifyLoop_spaces hws',
      minifyLoop_spaces hws'', isSpace] using this
  | @member k b ws ws' s c ws'' ws₃ t d hb hws hws' _ hws'' hws₃ _ ih iht =>
    have := minifyLoop_quoted hb (ws ++ 0x3a :: (ws' ++ (s ++ (ws'' ++ 0x2c :: (ws₃ ++ (t ++ r))))))
    simpa [ih, iht, minifyLoop_token, minifyLoop_spaces hws, minifyLoop_spaces hws',
      minifyLoop_spaces hws'', minifyLoop_spaces hws₃, isSpace] using this

theorem Text.compact (h : Text p k s c) : Text p k c c := by
  induction h with
  | string hb => exact .string hb
  | word hw => exact .word hw
  | number ht hw => exact .number ht hw
  | emptyArray => exact .emptyArray spaces_nil
  | array _ _ ih => exact .array spaces_nil ih
  | emptyObject => exact .emptyObject spaces_nil
  | object _ _ ih => exact .object spaces_nil ih
  | lastElement _ _ ih => exact .lastElement ih spaces_nil
  | element _ _ _ _ ih iht => exact .element ih spaces_nil spaces_nil iht
  | lastMember hb _ _ _ _ ih => exact .lastMember hb spaces_nil spaces_nil ih spaces_nil
  | member hb _ _ _ _ _ _ ih iht =>
    exact .member hb spaces_nil spaces_nil ih spaces_nil spaces_nil iht

/-! ### The scanner -/

theorem jsonLit_eq_some {lit rest : Bytes} : jsonLit lit s = some rest ↔ s = lit ++ rest := by
  unfold jsonLit
  constructor
  · intro h
    split at h
    · rename_i hpre
      obtain ⟨t, rfl⟩ := hpre
      simpa using h
    · simp at h
  · rintro rfl
    simp

theorem jsonLit_eq_none {lit : Bytes} : jsonLit lit s = none ↔ ¬ lit <+: s := by simp [jsonLit]

theorem jsonSkipValueNest_skipWs (k : ℕ) (s : Bytes) :
    jsonSkipValueNest k (skipWs s) = jsonSkipValueNest k s := by
  unfold jsonSkipValueNest
  rw [skipWs_skipWs]

theorem jsonString_skipWs (s : Bytes) : jsonString (skipWs s) = jsonString s := by
  unfold jsonString
  rw [skipWs_skipWs]

theorem jsonSkipValueNest_spaces (k : ℕ) (h : Spaces ws) (s : Bytes) :
    jsonSkipValueNest k (ws ++ s) = jsonSkipValueNest k s := by
  rw [← jsonSkipValueNest_skipWs, skipWs_spaces h, jsonSkipValueNest_skipWs]

theorem jsonString_spaces (h : Spaces ws) (s : Bytes) : jsonString (ws ++ s) = jsonString s := by
  rw [← jsonString_skipWs, skipWs_spaces h, jsonString_skipWs]

theorem Text.head (h : Text p k s c) :
    ∃ d t, s = d :: t ∧ isSpace d = false ∧ d ≠ 0x5d ∧ d ≠ 0x7d := by
  induction h with
  | string | emptyArray | array | emptyObject | object | lastMember | member =>
    exact ⟨_, _, rfl, by decide, by decide, by decide⟩
  | word hw =>
    simp only [words, mem_cons, not_mem_nil, or_false] at hw
    rcases hw with rfl | rfl | rfl
    · exact ⟨0x74, _, rfl, by decide, by decide, by decide⟩
    · exact ⟨0x66, _, rfl, by decide, by decide, by decide⟩
    · exact ⟨0x6e, _, rfl, by decide, by decide, by decide⟩
  | @number k t ht =>
    obtain ⟨d, u, rfl⟩ := exists_cons_of_ne_nil (numberForm_ne_nil ht)
    have hd := numberForm_numChar ht d (by simp)
    refine ⟨d, u, rfl, isSpace_of_numChar hd, ?_, ?_⟩ <;>
    · rintro rfl
      simp [isNumChar, isAlnum, isDigit, isUpper, isLower] at hd
  | lastElement _ _ ih | element _ _ _ _ ih =>
    obtain ⟨d, t, rfl, h⟩ := ih
    exact ⟨d, _, rfl, h⟩

theorem Text.head_eq (h : Text p k s c) : s.head? = c.head? := by
  induction h with
  | string | word | number | emptyArray | array | emptyObject | object | lastMember | member => rfl
  | lastElement hs _ ih | element hs _ _ _ ih =>
    obtain ⟨d, t, rfl, -⟩ := hs.head
    obtain ⟨e, u, rfl, -⟩ := hs.compact.head
    simpa using ih

theorem Text.skipWs (h : Text p k s c) (r : Bytes) : skipWs (s ++ r) = s ++ r := by
  obtain ⟨d, t, rfl, hd, -⟩ := h.head
  exact skipWs_of_not_space hd _

/-- What the scanner does at a phrase with anything behind it. -/
def Skips (k : ℕ) (s : Bytes) : Phrase → Prop
  | .value => ∀ r, Delimited r → jsonSkipValueNest k (s ++ r) = some r
  | .elements => ∀ r fuel, s.length < fuel →
      jsonSkipElements (jsonSkipValueNest k) fuel (s ++ r) = some r
  | .members => ∀ r fuel, s.length < fuel →
      jsonSkipMembers (jsonSkipValueNest k) fuel (s ++ r) = some r

theorem delimited_spaces {r : Bytes} (hws : Spaces ws) (hr : Delimited r) :
    Delimited (ws ++ r) := by
  cases ws with
  | nil => exact hr
  | cons d ws =>
    intro c hc
    simp only [cons_append, head?_cons, mem_def, some.injEq] at hc
    exact Or.inl (hws c (by simp [hc]))

theorem delimited_cons {d : UInt8} (h : d = 0x2c ∨ d = 0x5d ∨ d = 0x7d) (r : Bytes) :
    Delimited (d :: r) := by
  intro c hc
  simp only [head?_cons, mem_def, some.injEq] at hc
  exact Or.inr (hc ▸ h)

theorem prefix_of_delimited {w t r : Bytes} (hw : w ∈ words) (hr : Delimited r)
    (h : w <+: t ++ r) : w <+: t := by
  cases r with
  | nil => simpa using h
  | cons d r =>
    refine (prefix_append_cons_iff fun hd => ?_).mp h
    have hnum := isNumChar_delimiter (hr d (by simp))
    rw [words_numChar hw d hd] at hnum
    simp at hnum

theorem jsonSkipElements_spaces (k fuel : ℕ) (h : Spaces ws) (s : Bytes) :
    jsonSkipElements (jsonSkipValueNest k) fuel (ws ++ s) =
      jsonSkipElements (jsonSkipValueNest k) fuel s := by
  cases fuel with
  | zero => rfl
  | succ fuel => rw [jsonSkipElements, jsonSkipValueNest_spaces k h, jsonSkipElements]

theorem jsonSkipMembers_spaces (k fuel : ℕ) (h : Spaces ws) (s : Bytes) :
    jsonSkipMembers (jsonSkipValueNest k) fuel (ws ++ s) =
      jsonSkipMembers (jsonSkipValueNest k) fuel s := by
  cases fuel with
  | zero => rfl
  | succ fuel => rw [jsonSkipMembers, jsonString_spaces h, jsonSkipMembers]

theorem jsonSkipValueNest_word (k : ℕ) {w : Bytes} (hw : w ∈ words) (r : Bytes) :
    jsonSkipValueNest k (w ++ r) = some r := by
  have hlit : ∀ w' ∈ words, w' ≠ w → jsonLit w' (w ++ r) = none := by
    intro w' hw' hne
    refine jsonLit_eq_none.mpr fun hpre => ?_
    have hheads : ∀ u ∈ words, ∀ v ∈ words, u.head? = v.head? → u = v := by decide
    have hnil : ∀ u ∈ words, u ≠ [] := by decide
    refine hne (hheads w' hw' w hw ?_)
    obtain ⟨a, t, rfl⟩ := exists_cons_of_ne_nil (hnil w' hw')
    obtain ⟨b, u, rfl⟩ := exists_cons_of_ne_nil (hnil w hw)
    rw [cons_append, cons_prefix_cons] at hpre
    simp [hpre.1]
  have hself : jsonLit w (w ++ r) = some r := jsonLit_eq_some.mpr rfl
  simp only [words, mem_cons, not_mem_nil, or_false] at hw
  rw [jsonSkipValueNest]
  rcases hw with rfl | rfl | rfl
  · have hshape : str "true" ++ r = 0x74 :: (str "rue" ++ r) := rfl
    rw [hshape] at hlit hself ⊢
    rw [skipWs_of_not_space (by decide)]
    simp [hself]
  · have hshape : str "false" ++ r = 0x66 :: (str "alse" ++ r) := rfl
    have htrue := hlit (str "true") (by decide) (by decide)
    rw [hshape] at htrue hself ⊢
    rw [skipWs_of_not_space (by decide)]
    simp [hself, htrue]
  · have hshape : str "null" ++ r = 0x6e :: (str "ull" ++ r) := rfl
    have htrue := hlit (str "true") (by decide) (by decide)
    have hfalse := hlit (str "false") (by decide) (by decide)
    rw [hshape] at htrue hfalse hself ⊢
    rw [skipWs_of_not_space (by decide)]
    simp [hself, htrue, hfalse]

theorem jsonSkipValueNest_number (k : ℕ) {t r : Bytes} (ht : numberForm t = true)
    (hw : ∀ w ∈ words, ¬ w <+: t) (hr : Delimited r) : jsonSkipValueNest k (t ++ r) = some r := by
  have hnone : ∀ w ∈ words, jsonLit w (t ++ r) = none := fun w hmem =>
    jsonLit_eq_none.mpr fun hpre => hw w hmem (prefix_of_delimited hmem hr hpre)
  have htrue := hnone (str "true") (by decide)
  have hfalse := hnone (str "false") (by decide)
  have hnull := hnone (str "null") (by decide)
  have hread : jsonNumber (t ++ r) = some r := by
    rw [jsonNumber, ← strtod_of_number ht hr]
    unfold strtod
    rw [skipWs_skipWs]
  obtain ⟨d, u, rfl⟩ := exists_cons_of_ne_nil (numberForm_ne_nil ht)
  have hd := numberForm_numChar ht d (by simp)
  have hbracket : d ≠ 0x22 ∧ d ≠ 0x7b ∧ d ≠ 0x5b := by
    refine ⟨?_, ?_, ?_⟩ <;>
    · rintro rfl
      simp [isNumChar, isAlnum, isDigit, isUpper, isLower] at hd
  rw [jsonSkipValueNest, cons_append] at *
  rw [skipWs_of_not_space (isSpace_of_numChar hd)]
  simp [hbracket, htrue, hfalse, hnull, hread]

theorem Text.skips (h : Text p k s c) : Skips k s p := by
  induction h with
  | @string k b hb =>
    intro r _
    obtain ⟨out, houts⟩ := jsonString_of_body hb
    have hout := houts r
    rw [jsonSkipValueNest]
    simp only [cons_append, append_assoc, nil_append] at hout ⊢
    rw [skipWs_of_not_space (by decide)]
    simp [hout]
  | word hw => exact fun r _ => jsonSkipValueNest_word _ hw r
  | number ht hw => exact fun r hr => jsonSkipValueNest_number _ ht hw hr
  | @emptyArray k ws hws | @emptyObject k ws hws =>
    intro r _
    rw [jsonSkipValueNest]
    simp only [cons_append, append_assoc, nil_append]
    rw [skipWs_of_not_space (by decide)]
    simp only [skipWs_spaces hws]
    rw [skipWs_of_not_space (by decide)]
    simp
  | @array k ws s c hws hs ih | @object k ws s c hws hs ih =>
    intro r _
    rw [jsonSkipValueNest]
    simp only [cons_append, append_assoc]
    rw [skipWs_of_not_space (by decide)]
    obtain ⟨d, t, hst, -, hbracket, hbrace⟩ := hs.head
    have hskip := ih r ((s ++ r).length + 1) (by rw [length_append]; omega)
    simp only [skipWs_spaces hws, hs.skipWs]
    rw [hst] at hskip ⊢
    simpa [hbracket, hbrace] using hskip
  | @lastElement k s c ws hs hws ih =>
    intro r fuel hfuel
    obtain ⟨fuel, rfl⟩ : ∃ f, fuel = f + 1 := ⟨fuel - 1, by omega⟩
    have hvalue := ih (ws ++ 0x5d :: r) (delimited_spaces hws (delimited_cons (by simp) r))
    rw [jsonSkipElements]
    simp only [append_assoc, cons_append, nil_append, hvalue, skipWs_spaces hws]
    rw [skipWs_of_not_space (by decide)]
    simp
  | @element k s c ws ws' t d hs hws hws' ht ih iht =>
    intro r fuel hfuel
    obtain ⟨fuel, rfl⟩ : ∃ f, fuel = f + 1 := ⟨fuel - 1, by omega⟩
    have hvalue := ih (ws ++ 0x2c :: (ws' ++ (t ++ r)))
      (delimited_spaces hws (delimited_cons (by simp) _))
    have hrest := iht r fuel (by simp at hfuel; omega)
    rw [jsonSkipElements]
    simp only [append_assoc, cons_append, hvalue, skipWs_spaces hws]
    rw [skipWs_of_not_space (by decide)]
    simpa [jsonSkipElements_spaces k fuel hws'] using hrest
  | @lastMember k b ws ws' s c ws'' hb hws hws' hs hws'' ih =>
    intro r fuel hfuel
    obtain ⟨fuel, rfl⟩ : ∃ f, fuel = f + 1 := ⟨fuel - 1, by omega⟩
    have hvalue := ih (ws'' ++ 0x7d :: r) (delimited_spaces hws'' (delimited_cons (by simp) r))
    obtain ⟨key, hkeys⟩ := jsonString_of_body hb
    have hkey := hkeys (ws ++ 0x3a :: (ws' ++ (s ++ (ws'' ++ 0x7d :: r))))
    rw [jsonSkipMembers]
    simp only [append_assoc, cons_append, nil_append] at hkey ⊢
    simp only [hkey, skipWs_spaces hws]
    rw [skipWs_of_not_space (by decide)]
    simp only [if_true, jsonSkipValueNest_spaces k hws', hvalue, skipWs_spaces hws'']
    rw [skipWs_of_not_space (by decide)]
    simp
  | @member k b ws ws' s c ws'' ws₃ t d hb hws hws' hs hws'' hws₃ ht ih iht =>
    intro r fuel hfuel
    obtain ⟨fuel, rfl⟩ : ∃ f, fuel = f + 1 := ⟨fuel - 1, by omega⟩
    have hvalue := ih (ws'' ++ 0x2c :: (ws₃ ++ (t ++ r)))
      (delimited_spaces hws'' (delimited_cons (by simp) _))
    have hrest := iht r fuel (by simp at hfuel; omega)
    obtain ⟨key, hkeys⟩ := jsonString_of_body hb
    have hkey := hkeys (ws ++ 0x3a :: (ws' ++ (s ++ (ws'' ++ 0x2c :: (ws₃ ++ (t ++ r))))))
    rw [jsonSkipMembers]
    simp only [append_assoc, cons_append] at hkey ⊢
    simp only [hkey, skipWs_spaces hws]
    rw [skipWs_of_not_space (by decide)]
    simp only [if_true, jsonSkipValueNest_spaces k hws', hvalue, skipWs_spaces hws'']
    rw [skipWs_of_not_space (by decide)]
    simpa [jsonSkipMembers_spaces k fuel hws₃] using hrest

/-- `skip` reads a phrase at the front of the text. -/
def Reads (p : Phrase) (k : ℕ) (skip : Bytes → Option Bytes) : Prop :=
  ∀ s rest, skip s = some rest → ∃ v c, skipWs s = v ++ rest ∧ Text p k v c

theorem reads_elements (hvalue : Reads .value k (jsonSkipValueNest k)) (fuel : ℕ) :
    Reads .elements k (jsonSkipElements (jsonSkipValueNest k) fuel) := by
  induction fuel with
  | zero => intro s rest h; simp [jsonSkipElements] at h
  | succ fuel ih =>
    intro s rest h
    rw [jsonSkipElements] at h
    split at h
    · simp at h
    · rename_i behind hskip
      obtain ⟨v, c, hv, htext⟩ := hvalue s behind hskip
      obtain ⟨ws, hbehind, hws⟩ := exists_spaces behind
      split at h
      · simp at h
      · rename_i d t hnext
        rw [hnext] at hbehind
        split at h
        · rename_i hd
          simp only [some.injEq] at h
          exact ⟨_, _, by rw [hv, hbehind, hd, h]; simp, .lastElement htext hws⟩
        · split at h
          · rename_i hd
            obtain ⟨v', c', hv', htext'⟩ := ih t rest h
            obtain ⟨ws', ht, hws'⟩ := exists_spaces t
            rw [hv'] at ht
            exact ⟨_, _, by rw [hv, hbehind, hd, ht]; simp, .element htext hws hws' htext'⟩
          · simp at h

theorem reads_members (hvalue : Reads .value k (jsonSkipValueNest k)) (fuel : ℕ) :
    Reads .members k (jsonSkipMembers (jsonSkipValueNest k) fuel) := by
  induction fuel with
  | zero => intro s rest h; simp [jsonSkipMembers] at h
  | succ fuel ih =>
    intro s rest h
    rw [jsonSkipMembers] at h
    split at h
    · simp at h
    · rename_i key behind hkey
      obtain ⟨b, hs, hb⟩ := jsonString_eq_some hkey
      obtain ⟨ws, hbehind, hws⟩ := exists_spaces behind
      split at h
      · simp at h
      · rename_i colon afterColon hcolon
        rw [hcolon] at hbehind
        split at h
        · rename_i hcol
          split at h
          · simp at h
          · rename_i after hskip
            obtain ⟨v, c, hv, htext⟩ := hvalue afterColon after hskip
            obtain ⟨ws', hafterColon, hws'⟩ := exists_spaces afterColon
            obtain ⟨ws'', hafter, hws''⟩ := exists_spaces after
            rw [hv] at hafterColon
            split at h
            · simp at h
            · rename_i d t hnext
              rw [hnext] at hafter
              split at h
              · rename_i hd
                simp only [some.injEq] at h
                exact ⟨_, _, by rw [hs, hbehind, hcol, hafterColon, hafter, hd, h]; simp,
                  .lastMember hb hws hws' htext hws''⟩
              · split at h
                · rename_i hd
                  obtain ⟨v', c', hv', htext'⟩ := ih t rest h
                  obtain ⟨ws₃, ht, hws₃⟩ := exists_spaces t
                  rw [hv'] at ht
                  exact ⟨_, _, by rw [hs, hbehind, hcol, hafterColon, hafter, hd, ht]; simp,
                    .member hb hws hws' htext hws'' hws₃ htext'⟩
                · simp at h
        · simp at h

theorem reads_scalar {t rest : Bytes} {d : UInt8} (hs : skipWs s = d :: t) (hobject : d ≠ 0x7b)
    (harray : d ≠ 0x5b) (h : jsonSkipValueNest k s = some rest) :
    ∃ v c, d :: t = v ++ rest ∧ Text .value k v c := by
  have hspace := skipWs_of_not_space (head_skipWs hs) t
  rw [jsonSkipValueNest] at h
  simp only [hs, hobject, harray, if_false] at h
  split at h
  · simp only [map_eq_some_iff] at h
    obtain ⟨⟨out, behind⟩, hstring, rfl⟩ := h
    obtain ⟨b, hb, hbody⟩ := jsonString_eq_some hstring
    rw [hspace] at hb
    exact ⟨_, _, by rw [hb]; simp, .string hbody⟩
  · split at h
    · rename_i hlit
      rw [some.inj h] at hlit
      exact ⟨_, _, jsonLit_eq_some.mp hlit, .word (by decide)⟩
    · rename_i hlit
      rw [some.inj h] at hlit
      exact ⟨_, _, jsonLit_eq_some.mp hlit, .word (by decide)⟩
    · rename_i hlit
      rw [some.inj h] at hlit
      exact ⟨_, _, jsonLit_eq_some.mp hlit, .word (by decide)⟩
    · rename_i htrue hfalse hnull
      obtain ⟨v, hv, hnum⟩ := strtod_eq_some h
      rw [skipWs_skipWs, hspace] at hv
      refine ⟨v, v, hv, .number hnum fun w hw hpre => ?_⟩
      have hword : w <+: d :: t := hv ▸ hpre.trans (prefix_append _ _)
      simp only [words, mem_cons, not_mem_nil, or_false] at hw
      rcases hw with rfl | rfl | rfl
      · exact jsonLit_eq_none.mp htrue hword
      · exact jsonLit_eq_none.mp hfalse hword
      · exact jsonLit_eq_none.mp hnull hword

theorem reads_value (k : ℕ) : Reads .value k (jsonSkipValueNest k) := by
  induction k with
  | zero =>
    intro s rest h
    cases hs : skipWs s with
    | nil => rw [jsonSkipValueNest, hs] at h; simp at h
    | cons d t =>
      by_cases hobject : d = 0x7b
      · rw [jsonSkipValueNest, hs] at h; simp [hobject] at h
      by_cases harray : d = 0x5b
      · rw [jsonSkipValueNest, hs] at h; simp [harray] at h
      exact reads_scalar hs hobject harray h
  | succ k ih =>
    intro s rest h
    cases hs : skipWs s with
    | nil => rw [jsonSkipValueNest, hs] at h; simp at h
    | cons d t =>
      obtain ⟨ws, ht, hws⟩ := exists_spaces t
      by_cases hobject : d = 0x7b
      · rw [jsonSkipValueNest, hs] at h
        simp only [hobject, show ¬ ((0x7b : UInt8) = 0x22) by decide, if_false, if_true] at h
        split at h
        · simp at h
        · rename_i e u hnext
          rw [hnext] at ht
          split at h
          · rename_i he
            exact ⟨_, _, by rw [hobject, ht, he, some.inj h]; simp, .emptyObject hws⟩
          · obtain ⟨v, c, hv, htext⟩ := reads_members ih _ _ _ h
            rw [← hnext, skipWs_skipWs, hnext] at hv
            exact ⟨_, _, by rw [hobject, ht, hv]; simp, .object hws htext⟩
      by_cases harray : d = 0x5b
      · rw [jsonSkipValueNest, hs] at h
        simp only [harray, show ¬ ((0x5b : UInt8) = 0x22) by decide,
          show ¬ ((0x5b : UInt8) = 0x7b) by decide, if_false, if_true] at h
        split at h
        · simp at h
        · rename_i e u hnext
          rw [hnext] at ht
          split at h
          · rename_i he
            exact ⟨_, _, by rw [harray, ht, he, some.inj h]; simp, .emptyArray hws⟩
          · obtain ⟨v, c, hv, htext⟩ := reads_elements ih _ _ _ h
            rw [← hnext, skipWs_skipWs, hnext] at hv
            exact ⟨_, _, by rw [harray, ht, hv]; simp, .array hws htext⟩
      exact reads_scalar hs hobject harray h

/-! ### Minified values -/

/-- A value whose text has no white space between its tokens. -/
def Compact (v : Bytes) : Prop := Text .value jsonMaxNesting v v

theorem Compact.skip {v r : Bytes} (h : Compact v) (hr : Delimited r) :
    jsonSkipValue (v ++ r) = some r :=
  h.skips r hr

theorem delimited_nil : Delimited [] := by simp [Delimited]

theorem jsonMinifyRawValue_text {v : Bytes} (h : Text .value jsonMaxNesting v c) :
    jsonMinifyRawValue v = c := by
  have hskip : jsonSkipValue v = some [] := by simpa [jsonSkipValue] using h.skips [] delimited_nil
  have hws : skipWs v = v := by simpa using h.skipWs []
  have hmin := minifyLoop_text h []
  simp only [append_nil, minifyLoop] at hmin
  simp [jsonMinifyRawValue, hskip, hws, hmin]

theorem Compact.minify {v : Bytes} (h : Compact v) : jsonMinifyRawValue v = v :=
  jsonMinifyRawValue_text h

theorem Compact.ne_nil {v : Bytes} (h : Compact v) : v ≠ [] := by
  obtain ⟨d, t, rfl, -⟩ := h.head
  simp

theorem Compact.raw {v r : Bytes} (h : Compact v) (hr : Delimited r) :
    jsonRawValue (v ++ r) = some (v, r) := by
  simp [jsonRawValue, h.skip hr, h.skipWs]

theorem compact_of_jsonRawValue {raw rest : Bytes} (h : jsonRawValue s = some (raw, rest)) :
    Compact (jsonMinifyRawValue raw) ∧
      (jsonMinifyRawValue raw).head? = (Bytes.skipWs s).head? := by
  simp only [jsonRawValue, map_eq_some_iff, Prod.mk.injEq] at h
  obtain ⟨rest', hskip, hraw, rfl⟩ := h
  obtain ⟨v, c, hv, htext⟩ := reads_value _ _ _ hskip
  have hrv : raw = v := by
    rw [← hraw, hv]
    simp
  obtain ⟨d, t, rfl, -⟩ := htext.head
  rw [hrv, jsonMinifyRawValue_text htext, hv]
  exact ⟨htext.compact, by simp [← htext.head_eq]⟩

/-! ### Escaping inside values -/

section Escaping

variable {pat tail : Bytes} (hpat : pat = 0x3c :: tail)

include hpat in
theorem Body.mask {b : Bytes} (hb : Body b) : Body (mask pat (str "\\u003c") b) := by
  have hstart : ∀ {d : UInt8} {s : Bytes}, d ≠ 0x3c → ¬ pat <+: d :: s := by
    intro d s hd h
    rw [hpat, cons_prefix_cons] at h
    exact hd h.1.symm
  have hhex : ∀ {d : UInt8}, (jsonHex d).isSome → d ≠ 0x3c := by
    rintro d hd rfl
    simp [show jsonHex 0x3c = none by decide] at hd
  induction hb with
  | nil => exact .nil
  | plain d s hq hback hs ih =>
    rw [Search.mask]
    split
    · exact .unicode 0x30 0x30 0x33 0x63 _ (by decide) (by decide) (by decide) (by decide) ih
    · exact .plain d _ hq hback ih
  | short e s he hs ih =>
    have hne : e ≠ 0x3c := by
      rintro rfl
      simp [show jsonShortEscape 0x3c = none by decide] at he
    rw [Search.mask, if_neg (hstart (by decide)), Search.mask, if_neg (hstart hne)]
    exact .short e _ he ih
  | unicode a b c d s ha hb hc hd hs ih =>
    rw [Search.mask, if_neg (hstart (by decide)), Search.mask, if_neg (hstart (by decide)),
      Search.mask, if_neg (hstart (hhex ha)), Search.mask, if_neg (hstart (hhex hb)),
      Search.mask, if_neg (hstart (hhex hc)), Search.mask, if_neg (hstart (hhex hd))]
    exact .unicode a b c d _ ha hb hc hd ih

variable (hsep : ∀ d ∈ ([0x22, 0x2c, 0x3a, 0x5d, 0x7d] : Bytes), d ∉ pat)

include hpat hsep in
/-- A pattern that starts with `<` and meets no separator lies inside one string. -/
theorem Text.mask {p : Phrase} {k : ℕ} {s c : Bytes} (h : Text p k s c) :
    Text p k (mask pat (str "\\u003c") c) (mask pat (str "\\u003c") c) := by
  have hne : pat ≠ [] := by simp [hpat]
  have hcut : ∀ {d : UInt8}, d ∈ ([0x22, 0x2c, 0x3a, 0x5d, 0x7d] : Bytes) → ∀ left right,
      Search.mask pat (str "\\u003c") (left ++ d :: right) =
        Search.mask pat (str "\\u003c") left ++ d :: Search.mask pat (str "\\u003c") right :=
    fun hd left right => mask_append_cons (hsep _ hd) hne _ left right
  have hkeep : ∀ {d : UInt8}, d ≠ 0x3c → ∀ right,
      Search.mask pat (str "\\u003c") (d :: right) =
        d :: Search.mask pat (str "\\u003c") right :=
    fun hd right => @mask_append_of_not_mem _ _ pat 0x3c tail hpat _ [_] (by simpa using Ne.symm hd) right
  have hsame : ∀ {t : Bytes}, (0x3c : UInt8) ∉ t → Search.mask pat (str "\\u003c") t = t :=
    fun ht => mask_eq_self _ fun hin => ht (hin.subset (by simp [hpat]))
  induction h with
  | string hb =>
    rw [cons_append, hkeep (by decide), hcut (by simp)]
    exact .string (hb.mask hpat)
  | word hw =>
    rw [hsame fun hmem => lt_not_numChar (words_numChar hw 0x3c hmem)]
    exact .word hw
  | number ht hw =>
    rw [hsame fun hmem => lt_not_numChar (numberForm_numChar ht 0x3c hmem)]
    exact .number ht hw
  | emptyArray =>
    rw [hsame (by decide)]
    exact .emptyArray spaces_nil
  | array _ _ ih =>
    rw [hkeep (by decide)]
    exact .array spaces_nil ih
  | emptyObject =>
    rw [hsame (by decide)]
    exact .emptyObject spaces_nil
  | object _ _ ih =>
    rw [hkeep (by decide)]
    exact .object spaces_nil ih
  | lastElement _ _ ih =>
    rw [hcut (by simp)]
    exact .lastElement ih spaces_nil
  | element _ _ _ _ ih iht =>
    rw [hcut (by simp)]
    exact .element ih spaces_nil spaces_nil iht
  | lastMember hb _ _ _ _ ih =>
    rw [cons_append, hkeep (by decide), hcut (by simp), hkeep (by decide), hcut (by simp)]
    exact .lastMember (hb.mask hpat) spaces_nil spaces_nil ih spaces_nil
  | member hb _ _ _ _ _ _ ih iht =>
    rw [cons_append, hkeep (by decide), hcut (by simp), hkeep (by decide), hcut (by simp)]
    exact .member (hb.mask hpat) spaces_nil spaces_nil ih spaces_nil spaces_nil iht

include hpat hsep in
theorem Compact.mask {v : Bytes} (h : Compact v) : Compact (mask pat (str "\\u003c") v) :=
  Text.mask hpat hsep h

end Escaping

end Ds4Studio.Json
