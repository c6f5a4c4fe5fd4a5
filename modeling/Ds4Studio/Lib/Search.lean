import Mathlib.Data.List.Infix

/-!
Substring search over lists with decidable equality. `find` is the first
position of a pattern, `findLast` the last one. A pattern is headed when its
first letter does not recur in it; two occurrences of a headed pattern never
overlap, so text in front of a written pattern cannot hide it.
-/

namespace Ds4Studio.Search

open List Option

variable {α : Type*} [DecidableEq α]

/-- First position at which the pattern occurs. -/
def find (pat : List α) : List α → Option ℕ
  | [] => if pat = [] then some 0 else none
  | c :: rest => if pat <+: c :: rest then some 0 else (find pat rest).map (· + 1)

/-- Last position at which the pattern occurs. -/
def findLast (pat : List α) : List α → Option ℕ
  | [] => if pat = [] then some 0 else none
  | c :: rest =>
      match findLast pat rest with
      | some i => some (i + 1)
      | none => if pat <+: c :: rest then some 0 else none

/-- The text in front of the first occurrence and the text behind it. -/
def cut (pat text : List α) : Option (List α × List α) :=
  (find pat text).map fun i => (text.take i, text.drop (i + pat.length))

theorem find_eq_some_iff (pat text : List α) (i : ℕ) :
    find pat text = some i ↔
      i ≤ text.length ∧ pat <+: text.drop i ∧ ∀ j < i, ¬ pat <+: text.drop j := by
  induction text generalizing i with
  | nil =>
    by_cases hp : pat = []
    · subst pat
      simp only [find, if_true, some.injEq, length_nil, Nat.le_zero, nil_prefix, not_true, true_and]
      constructor
      · rintro rfl
        exact ⟨rfl, fun j hj => absurd hj (Nat.not_lt_zero j)⟩
      · exact fun h => h.1.symm
    · simp [find, hp]
  | cons c rest ih =>
    by_cases hp : pat <+: c :: rest
    · simp only [find, hp, if_true, some.injEq]
      constructor
      · rintro rfl
        exact ⟨Nat.zero_le _, hp, fun j hj => absurd hj (Nat.not_lt_zero j)⟩
      · rintro ⟨-, -, hfirst⟩
        by_contra hne
        exact hfirst 0 (Nat.pos_of_ne_zero (Ne.symm hne)) hp
    · simp only [find, hp, if_false, map_eq_some_iff]
      constructor
      · rintro ⟨k, hk, rfl⟩
        obtain ⟨hle, hat, hfirst⟩ := (ih k).mp hk
        refine ⟨by simpa using hle, by simpa using hat, fun j hj => ?_⟩
        cases j with
        | zero => simpa using hp
        | succ j => simpa using hfirst j (by omega)
      · rintro ⟨hle, hat, hfirst⟩
        cases i with
        | zero => exact absurd (by simpa using hat) hp
        | succ i =>
          refine ⟨i, (ih i).mpr ⟨by simpa using hle, by simpa using hat, fun j hj => ?_⟩, rfl⟩
          simpa using hfirst (j + 1) (by omega)

theorem find_eq_none_iff (pat text : List α) : find pat text = none ↔ ¬ pat <:+: text := by
  induction text with
  | nil => by_cases hp : pat = [] <;> simp [find, hp]
  | cons c rest ih =>
    by_cases hp : pat <+: c :: rest
    · simp [find, hp, hp.isInfix]
    · simp [find, hp, ih, infix_cons_iff]

variable {pat text : List α} {i : ℕ}

omit [DecidableEq α] in
theorem infix_of_prefix_drop (h : pat <+: text.drop i) : pat <:+: text :=
  h.isInfix.trans (drop_suffix i text).isInfix

theorem find_isSome_of_infix (h : pat <:+: text) : ∃ i, find pat text = some i := by
  cases hf : find pat text with
  | none => exact absurd h ((find_eq_none_iff pat text).mp hf)
  | some i => exact ⟨i, rfl⟩

theorem find_bound (h : find pat text = some i) : i + pat.length ≤ text.length := by
  obtain ⟨hle, hat, -⟩ := (find_eq_some_iff pat text i).mp h
  have hlen := hat.length_le
  rw [length_drop] at hlen
  omega

variable {pat before : List α}

theorem cut_eq_some_iff {text after : List α} :
    cut pat text = some (before, after) ↔
      find pat text = some before.length ∧ text = before ++ pat ++ after := by
  simp only [cut, map_eq_some_iff, Prod.mk.injEq]
  constructor
  · rintro ⟨i, hi, rfl, rfl⟩
    obtain ⟨hle, ⟨tail, htail⟩, -⟩ := (find_eq_some_iff pat text i).mp hi
    refine ⟨by rw [hi, length_take, Nat.min_eq_left hle], ?_⟩
    have hdrop : text.drop (i + pat.length) = tail := by rw [← drop_drop, ← htail, drop_left]
    rw [hdrop, append_assoc, htail, take_append_drop]
  · rintro ⟨hfind, htext⟩
    refine ⟨before.length, hfind, ?_, ?_⟩
    · rw [htext, append_assoc, take_left]
    · rw [htext, drop_left' (by simp)]

theorem cut_eq_none_iff (pat text : List α) : cut pat text = none ↔ ¬ pat <:+: text := by
  rw [cut, map_eq_none_iff, find_eq_none_iff]

/-- The first letter of the pattern does not recur in it. -/
def Headed (pat : List α) : Prop := ∃ a rest, pat = a :: rest ∧ a ∉ rest

/-- A headed pattern written behind text without it is found where it was
written: an earlier occurrence would put its first letter inside the copy. -/
theorem find_append_headed (hpat : Headed pat) (hbefore : ¬ pat <:+: before) (after : List α) :
    find pat (before ++ pat ++ after) = some before.length := by
  obtain ⟨a, rest, rfl, ha⟩ := hpat
  refine (find_eq_some_iff _ _ _).mpr ⟨by simp, ?_, fun j hj hpre => ?_⟩
  · rw [append_assoc, drop_left]
    exact prefix_append _ _
  · rw [append_assoc, drop_append_of_le_length (by omega)] at hpre
    by_cases hlen : j + (a :: rest).length ≤ before.length
    · refine hbefore (infix_of_prefix_drop (i := j) ?_)
      refine prefix_of_prefix_length_le hpre (prefix_append _ _) ?_
      rw [length_drop]
      omega
    · -- the copy starts inside this occurrence, at a letter of its tail
      obtain ⟨tail, htail⟩ := hpre
      have hget := congrArg (fun l => l[before.length - j]?) htail
      simp only [length_cons] at hlen
      have hdrop : (before.drop j).length = before.length - j := by rw [length_drop]
      rw [getElem?_append_left (by simp only [length_cons]; omega),
        getElem?_append_right (by omega), hdrop, Nat.sub_self] at hget
      obtain ⟨k, hk⟩ : ∃ k, before.length - j = k + 1 := ⟨before.length - j - 1, by omega⟩
      rw [hk] at hget
      exact ha (mem_of_getElem? hget)

theorem cut_append_headed (hpat : Headed pat) (hbefore : ¬ pat <:+: before) (after : List α) :
    cut pat (before ++ pat ++ after) = some (before, after) :=
  cut_eq_some_iff.mpr ⟨find_append_headed hpat hbefore after, rfl⟩

omit [DecidableEq α] in
/-- A pattern that avoids a letter of every long enough overlap is not created
by joining two texts without it. -/
theorem not_infix_append {left right : List α} (hleft : ¬ pat <:+: left) (hright : ¬ pat <:+: right)
    (hsplit : ∀ p s, p ≠ [] → s ≠ [] → pat = p ++ s → p <:+ left → ¬ s <+: right) :
    ¬ pat <:+: left ++ right := by
  rw [infix_append_iff]
  rintro (h | h | ⟨p, s, hps, hp, hs⟩)
  · exact hleft h
  · exact hright h
  · by_cases hp0 : p = []
    · exact hright (by rw [hps, hp0]; exact hs.isInfix)
    · by_cases hs0 : s = []
      · exact hleft (by rw [hps, hs0, append_nil]; exact hp.isInfix)
      · exact hsplit p s hp0 hs0 hps hp hs

omit [DecidableEq α] in
theorem infix_of_append_disjoint {left right : List α} (hpat : pat ≠ [])
    (hright : ∀ c ∈ right, c ∉ pat) (h : pat <:+: left ++ right) : pat <:+: left := by
  by_contra hleft
  refine not_infix_append hleft (fun hin => ?_) (fun p s _ hs hps _ hpre => ?_) h
  · obtain ⟨a, tail, rfl⟩ := exists_cons_of_ne_nil hpat
    exact hright a (hin.subset (by simp)) (by simp)
  · obtain ⟨a, tail, rfl⟩ := exists_cons_of_ne_nil hs
    exact hright a (hpre.subset (by simp)) (by simp [hps])

omit [DecidableEq α] in
/-- A pattern that ends in its only copy of a letter ends at one of the places
where the text has that letter. -/
theorem infix_concat_append_cons {q left right : List α} {d : α} (hq : d ∉ q) (hleft : d ∉ left)
    (h : q ++ [d] <:+: left ++ d :: right) : q <:+ left ∨ q ++ [d] <:+: right := by
  obtain ⟨s, t, hst⟩ := h
  have hst' : (s ++ q) ++ d :: t = left ++ d :: right := by simpa using hst
  rcases append_eq_append_iff.mp hst' with ⟨m, hm, hdt⟩ | ⟨m, hm, hdt⟩
  · cases m with
    | nil => exact Or.inl ⟨s, by simpa using hm.symm⟩
    | cons x m =>
      rw [cons_append, cons.injEq] at hdt
      exact absurd (by simp [hm, hdt.1]) hleft
  · cases m with
    | nil => exact Or.inl ⟨s, by simpa using hm⟩
    | cons x m =>
      rw [cons_append, cons.injEq] at hdt
      obtain ⟨rfl, hright⟩ := hdt
      right
      have hm' : s ++ q = (left ++ [d]) ++ m := by simpa using hm
      rcases append_eq_append_iff.mp hm' with ⟨n, hn, hq'⟩ | ⟨n, hn, hq'⟩
      · rcases eq_nil_or_concat n with rfl | ⟨n, e, rfl⟩
        · exact ⟨[], t, by simp [hright, hq']⟩
        · rw [concat_eq_append, ← append_assoc] at hn
          have he := (append_inj' hn rfl).2
          simp only [cons.injEq, and_true] at he
          exact absurd (by simp [hq', he]) hq
      · exact ⟨n, t, by simp [hright, hq']⟩

/-! ### Masking -/

/-- The first letter of every occurrence of the pattern is replaced. -/
def mask (pat rep : List α) : List α → List α
  | [] => []
  | c :: rest =>
      if pat <+: c :: rest then rep ++ mask pat rep rest else c :: mask pat rep rest

/-- A text that avoids the first letter of the replacement is read in the masked
text only where it stood before. -/
theorem prefix_of_prefix_mask {rep q text : List α} {r : α} {rest : List α}
    (hrep : rep = r :: rest) (hr : r ∉ q) (h : q <+: mask pat rep text) : q <+: text := by
  induction q generalizing text with
  | nil => exact nil_prefix
  | cons a q ih =>
    cases text with
    | nil => simp [mask] at h
    | cons c text =>
      simp only [mem_cons, not_or] at hr
      rw [mask] at h
      split at h
      · rw [hrep, cons_append, cons_prefix_cons] at h
        exact absurd h.1.symm hr.1
      · rw [cons_prefix_cons] at h ⊢
        exact ⟨h.1, ih hr.2 h.2⟩

/-- Masking removes every occurrence of a pattern whose first letter does not
come back in the replacement. -/
theorem not_infix_mask {rep : List α} {a r : α} {tail rest : List α} (hpat : pat = a :: tail)
    (hrep : rep = r :: rest) (ha : a ∉ rep) (hr : r ∉ pat) (text : List α) :
    ¬ pat <:+: mask pat rep text := by
  induction text with
  | nil => simp [mask, hpat]
  | cons c text ih =>
    rw [mask]
    split
    · rename_i hat
      intro h
      rw [infix_append_iff] at h
      rcases h with h | h | ⟨p, s, hps, hp, hs⟩
      · exact ha (h.subset (by simp [hpat]))
      · exact ih h
      · cases p with
        | nil => exact ih (by simpa [hps] using hs.isInfix)
        | cons x p =>
          rw [hpat, cons_append, cons.injEq] at hps
          exact ha (hp.subset (by simp [hps.1]))
    · rename_i hat
      rw [infix_cons_iff, not_or]
      refine ⟨fun h => hat ?_, ih⟩
      rw [hpat, cons_prefix_cons] at h ⊢
      refine ⟨h.1, prefix_of_prefix_mask hrep (fun hmem => hr ?_) h.2⟩
      rw [hpat]
      exact mem_cons_of_mem _ hmem

theorem mask_eq_self (rep : List α) (h : ¬ pat <:+: text) : mask pat rep text = text := by
  induction text with
  | nil => rfl
  | cons c text ih =>
    rw [infix_cons_iff, not_or] at h
    rw [mask, if_neg h.1, ih h.2]

theorem mask_append_of_not_mem {a : α} {tail : List α} (hpat : pat = a :: tail) (rep : List α)
    {left : List α} (ha : a ∉ left) (right : List α) :
    mask pat rep (left ++ right) = left ++ mask pat rep right := by
  induction left with
  | nil => rfl
  | cons c left ih =>
    simp only [mem_cons, not_or] at ha
    rw [cons_append, mask, if_neg, ih ha.2, cons_append]
    rw [hpat, cons_prefix_cons]
    exact fun h => ha.1 h.1

omit [DecidableEq α] in
theorem prefix_append_cons_iff {left right : List α} {d : α} (hd : d ∉ pat) :
    pat <+: left ++ d :: right ↔ pat <+: left := by
  refine ⟨fun h => ?_, fun h => h.trans (prefix_append _ _)⟩
  rcases prefix_or_prefix_of_prefix h (prefix_append left (d :: right)) with h' | h'
  · exact h'
  · obtain ⟨more, rfl⟩ := h'
    rw [prefix_append_right_inj] at h
    cases more with
    | nil => simp
    | cons x more =>
      rw [cons_prefix_cons] at h
      exact absurd (by simp [h.1]) hd

/-- An occurrence does not reach over a letter that is not in the pattern. -/
theorem find_append_cons {d : α} (hd : d ∉ pat) (hpat : pat ≠ []) (left right : List α) :
    find pat (left ++ d :: right) =
      (find pat left).or ((find pat right).map (· + (left.length + 1))) := by
  induction left with
  | nil =>
    have hno : ¬ pat <+: d :: right := by
      obtain ⟨a, tail, rfl⟩ := exists_cons_of_ne_nil hpat
      intro h
      rw [cons_prefix_cons] at h
      exact hd (by simp [h.1])
    simp [find, hno, hpat]
  | cons c left ih =>
    have hiff : pat <+: (c :: left) ++ d :: right ↔ pat <+: c :: left := prefix_append_cons_iff hd
    rw [cons_append] at hiff ⊢
    rw [find, find, ih]
    by_cases h : pat <+: c :: left
    · rw [if_pos (hiff.mpr h), if_pos h, some_or]
    · rw [if_neg (fun hp => h (hiff.mp hp)), if_neg h]
      cases find pat left with
      | some i => rfl
      | none =>
        cases find pat right with
        | none => rfl
        | some i => simp; omega

/-- A letter that does not occur in the pattern separates the two sides. -/
theorem mask_append_cons {d : α} (hd : d ∉ pat) (hpat : pat ≠ []) (rep left right : List α) :
    mask pat rep (left ++ d :: right) = mask pat rep left ++ d :: mask pat rep right := by
  induction left with
  | nil =>
    have hno : ¬ pat <+: d :: right := by
      obtain ⟨a, tail, rfl⟩ := exists_cons_of_ne_nil hpat
      intro h
      rw [cons_prefix_cons] at h
      exact hd (by simp [h.1])
    simp only [nil_append, mask, if_neg hno]
  | cons c left ih =>
    have hiff : pat <+: (c :: left) ++ d :: right ↔ pat <+: c :: left := prefix_append_cons_iff hd
    rw [cons_append] at hiff
    by_cases h : pat <+: c :: left
    · rw [cons_append, mask, if_pos (hiff.mpr h), ih, mask, if_pos h, append_assoc]
    · rw [cons_append, mask, if_neg (fun hp => h (hiff.mp hp)), ih, mask, if_neg h, cons_append]

/-! ### The earliest of several occurrences -/

/-- The least of the positions that are there, the first one where two are equal. -/
def earliest (positions : List (Option ℕ)) : Option ℕ :=
  positions.foldl (fun best position =>
    match position, best with
    | some i, some j => if i < j then some i else some j
    | some i, none => some i
    | none, best => best) none

variable (positions : List (Option ℕ))

theorem foldl_earliest (init : Option ℕ) :
    positions.foldl (fun best position =>
      match position, best with
      | some i, some j => if i < j then some i else some j
      | some i, none => some i
      | none, best => best) init = earliest (init :: positions) := by
  cases init <;> rfl

theorem earliest_cons (position : Option ℕ) (positions : List (Option ℕ)) :
    earliest (position :: positions) = match position, earliest positions with
      | some i, some j => if j < i then some j else some i
      | some i, none => some i
      | none, best => best := by
  induction positions generalizing position with
  | nil => cases position <;> rfl
  | cons q positions ih =>
    have hstep : earliest (position :: q :: positions) =
        earliest ((match q, position with
          | some i, some j => if i < j then some i else some j
          | some i, none => some i
          | none, best => best) :: positions) := by
      rw [← foldl_earliest, ← foldl_earliest, foldl_cons]
    rw [hstep, ih, ih]
    cases position with
    | none => cases q <;> rfl
    | some i =>
      cases q with
      | none => rfl
      | some j =>
        cases earliest positions with
        | none =>
          by_cases hji : j < i
          · simp [hji]
          · simp [hji]
        | some k =>
          by_cases hji : j < i <;> by_cases hkj : k < j <;> by_cases hki : k < i <;>
            simp [hji, hkj, hki] <;> omega

theorem earliest_eq_none_iff : earliest positions = none ↔ ∀ p ∈ positions, p = none := by
  induction positions with
  | nil => simp [earliest]
  | cons p positions ih =>
    rw [earliest_cons]
    cases p with
    | none => simpa using ih
    | some i =>
      cases hrest : earliest positions with
      | none => simp
      | some j =>
        by_cases hlt : j < i <;> simp [hlt]

theorem earliest_eq_some_iff (i : ℕ) :
    earliest positions = some i ↔
      some i ∈ positions ∧ ∀ j, some j ∈ positions → i ≤ j := by
  induction positions generalizing i with
  | nil => simp [earliest]
  | cons p positions ih =>
    rw [earliest_cons]
    cases p with
    | none => simpa using ih i
    | some k =>
      cases hrest : earliest positions with
      | none =>
        have hnone := (earliest_eq_none_iff positions).mp hrest
        constructor
        · intro h
          obtain rfl : k = i := by simpa using h
          refine ⟨mem_cons_self, ?_⟩
          intro j hj
          rcases mem_cons.mp hj with hj | hj
          · obtain rfl : j = k := by simpa using hj
            exact Nat.le_refl _
          · exact absurd (hnone _ hj) (by simp)
        · rintro ⟨hmem, -⟩
          rcases mem_cons.mp hmem with hmem | hmem
          · rw [hmem]
          · exact absurd (hnone _ hmem) (by simp)
      | some j =>
        obtain ⟨hj, hleast⟩ := (ih j).mp hrest
        by_cases hlt : j < k
        · simp only [hlt, if_true]
          constructor
          · intro h
            obtain rfl : j = i := by simpa using h
            refine ⟨mem_cons_of_mem _ hj, ?_⟩
            intro l hl
            rcases mem_cons.mp hl with hl | hl
            · obtain rfl : l = k := by simpa using hl
              omega
            · exact hleast l hl
          · rintro ⟨hmem, hle⟩
            have hij := hle j (mem_cons_of_mem _ hj)
            rcases mem_cons.mp hmem with hmem | hmem
            · obtain rfl : i = k := by simpa using hmem
              omega
            · have := hleast i hmem
              rw [some.injEq]
              omega
        · simp only [hlt, if_false]
          constructor
          · intro h
            obtain rfl : k = i := by simpa using h
            refine ⟨mem_cons_self, ?_⟩
            intro l hl
            rcases mem_cons.mp hl with hl | hl
            · obtain rfl : l = k := by simpa using hl
              exact Nat.le_refl _
            · have := hleast l hl
              omega
          · rintro ⟨hmem, hle⟩
            have hik := hle k mem_cons_self
            rcases mem_cons.mp hmem with hmem | hmem
            · rw [hmem]
            · have := hleast i hmem
              rw [some.injEq]
              omega

/-! ### The only occurrence -/

/-- The pattern occurs at one position, overlapping occurrences included. -/
def OnlyAt (pat text : List α) (i : ℕ) : Prop := ∀ j, pat <+: text.drop j ↔ j = i

omit [DecidableEq α] in
omit [DecidableEq α] in
theorem OnlyAt.bound (h : OnlyAt pat text i) (hpat : pat ≠ []) : i + pat.length ≤ text.length := by
  have hlen := ((h i).mpr rfl).length_le
  have hpos := length_pos_of_ne_nil hpat
  rw [length_drop] at hlen
  omega

theorem find_drop_eq_none_iff :
    find pat (text.drop i) = none ↔ ∀ j, i ≤ j → ¬ pat <+: text.drop j := by
  rw [find_eq_none_iff]
  constructor
  · intro h j hij hpre
    obtain ⟨k, rfl⟩ := Nat.exists_eq_add_of_le hij
    rw [← drop_drop] at hpre
    exact h (infix_of_prefix_drop hpre)
  · intro h hinfix
    obtain ⟨k, hk⟩ := find_isSome_of_infix hinfix
    obtain ⟨-, hpre, -⟩ := (find_eq_some_iff _ _ _).mp hk
    rw [drop_drop] at hpre
    exact h (i + k) (Nat.le_add_right i k) hpre

theorem onlyAt_iff (hpat : pat ≠ []) :
    OnlyAt pat text i ↔ find pat text = some i ∧ find pat (text.drop (i + 1)) = none := by
  rw [find_drop_eq_none_iff, find_eq_some_iff]
  constructor
  · intro h
    have hbound := h.bound hpat
    refine ⟨⟨by omega, (h i).mpr rfl, fun j hj hpre => ?_⟩, fun j hj hpre => ?_⟩
    · exact absurd ((h j).mp hpre) (Nat.ne_of_lt hj)
    · exact absurd ((h j).mp hpre) (Nat.ne_of_gt hj)
  · rintro ⟨⟨-, hat, hbefore⟩, hbehind⟩ j
    constructor
    · intro hpre
      rcases Nat.lt_trichotomy j i with hj | hj | hj
      · exact absurd hpre (hbefore j hj)
      · exact hj
      · exact absurd hpre (hbehind j hj)
    · rintro rfl
      exact hat

theorem OnlyAt.cut {text after : List α} (h : OnlyAt pat text before.length) (hpat : pat ≠ [])
    (htext : text = before ++ pat ++ after) : Search.cut pat text = some (before, after) :=
  cut_eq_some_iff.mpr ⟨((onlyAt_iff hpat).mp h).1, htext⟩

/-- A pattern that is cut out twice occurs at two places without overlap. -/
theorem apart_of_cut {text after middle behind : List α}
    (hcut : cut pat text = some (before, after)) (hagain : cut pat after = some (middle, behind)) :
    pat <+: text.drop before.length ∧
      pat <+: text.drop (before.length + pat.length + middle.length) := by
  obtain ⟨-, htext⟩ := cut_eq_some_iff.mp hcut
  obtain ⟨-, hafter⟩ := cut_eq_some_iff.mp hagain
  constructor
  · rw [htext, append_assoc, drop_left]
    exact prefix_append _ _
  · have hsplit : text = (before ++ pat ++ middle) ++ (pat ++ behind) := by
      rw [htext, hafter]
      simp only [append_assoc]
    rw [hsplit, drop_left' (by simp only [length_append])]
    exact prefix_append _ _

/-- A pattern that is cut out once does not occur at two places without overlap. -/
theorem not_apart_of_cut {text after : List α} {j : ℕ}
    (hcut : cut pat text = some (before, after)) (hagain : cut pat after = none)
    (hi : pat <+: text.drop i) (hj : pat <+: text.drop j) : ¬ i + pat.length ≤ j := by
  intro hij
  obtain ⟨hfind, htext⟩ := cut_eq_some_iff.mp hcut
  obtain ⟨-, -, hfirst⟩ := (find_eq_some_iff _ _ _).mp hfind
  have hle : before.length ≤ i := by
    by_contra hlt
    exact hfirst i (by omega) hi
  obtain ⟨k, rfl⟩ : ∃ k, j = before.length + pat.length + k :=
    ⟨j - (before.length + pat.length), by omega⟩
  rw [htext, ← drop_drop, drop_left' (by simp only [length_append])] at hj
  exact (cut_eq_none_iff pat after).mp hagain (infix_of_prefix_drop hj)

omit [DecidableEq α] in
theorem Headed.disjoint {j : ℕ} (h : Headed pat) (hi : pat <+: text.drop i)
    (hj : pat <+: text.drop j) (hij : i < j) : i + pat.length ≤ j := by
  obtain ⟨a, rest, rfl, ha⟩ := h
  by_contra hlt
  obtain ⟨k, rfl⟩ := Nat.exists_eq_add_of_lt hij
  obtain ⟨tail, htail⟩ := hi
  have hget : text[i + k + 1]? = rest[k]? := by
    have hdrop := congrArg (fun l => l[k + 1]?) htail
    simp only [cons_append, getElem?_cons_succ, getElem?_drop] at hdrop
    rw [getElem?_append_left (by simp only [length_cons] at hlt; omega)] at hdrop
    rw [hdrop, Nat.add_assoc]
  obtain ⟨tail', htail'⟩ := hj
  have hhead := congrArg (fun l => l[0]?) htail'
  simp only [cons_append, getElem?_cons_zero, getElem?_drop, Nat.add_zero] at hhead
  rw [hget] at hhead
  exact ha (mem_of_getElem? hhead.symm)

/-- For a headed pattern the second search can start behind the first occurrence. -/
theorem Headed.onlyAt_iff (h : Headed pat) :
    OnlyAt pat text i ↔
      find pat text = some i ∧ find pat (text.drop (i + pat.length)) = none := by
  have hpat : pat ≠ [] := by
    obtain ⟨a, rest, rfl, -⟩ := h
    exact cons_ne_nil a rest
  have hpos := length_pos_of_ne_nil hpat
  rw [Search.onlyAt_iff hpat, find_drop_eq_none_iff, find_drop_eq_none_iff]
  refine and_congr_right fun hfind => ⟨fun hbehind j hj => hbehind j (by omega),
    fun hbehind j hj hpre => ?_⟩
  obtain ⟨-, hat, -⟩ := (find_eq_some_iff _ _ _).mp hfind
  exact hbehind j (h.disjoint hat hpre hj) hpre

end Ds4Studio.Search
