import Mathlib.Data.List.Find
import Mathlib.Data.List.Infix

/-!
Cutting a list into neighbouring segments. `pieces` cuts greedily by a look-ahead
length, `split` takes out the first marker that occurs at each position, and
`mergeAll` joins neighbouring segments by rank until no pair is ranked. None of
the three loses a letter. A marker whose first letter occurs nowhere else in any
marker splits a text wherever it stands.
-/

namespace Ds4Studio.Segment

open List

variable {α β : Type*}

/-! ### Greedy pieces -/

/-- Cuts a list into pieces; the length of each is decided by what is left of the
list, and is taken to be one where that decision is zero. -/
def pieces (len : List α → ℕ) : List α → List (List α)
  | [] => []
  | c :: rest =>
      (c :: rest.take (len (c :: rest) - 1)) :: pieces len (rest.drop (len (c :: rest) - 1))
termination_by s => s.length
decreasing_by
  simp only [length_drop, length_cons]
  omega

variable (len : List α → ℕ)

@[simp] theorem pieces_nil : pieces len [] = [] := by rw [pieces]

theorem pieces_cons (c : α) (rest : List α) :
    pieces len (c :: rest) = (c :: rest.take (len (c :: rest) - 1)) ::
      pieces len (rest.drop (len (c :: rest) - 1)) := by
  rw [pieces]

theorem pieces_flatten (s : List α) : (pieces len s).flatten = s := by
  induction s using pieces.induct len with
  | case1 => simp
  | case2 c rest ih =>
    rw [pieces_cons, flatten_cons, ih, cons_append, take_append_drop]

/-! ### Markers -/

section Split

variable [DecidableEq α]

/-- The first listed marker that the text starts with. -/
def markerAt (marks : List (List α × β)) (s : List α) : Option (List α × β) :=
  marks.find? fun m => m.1 <+: s

/-- Takes the markers out of a text from left to right. The first list holds the
plain letters read since the last marker. -/
def split (marks : List (List α × β)) : List α → List α → List (List α ⊕ (List α × β))
  | span, [] => [.inl span]
  | span, c :: rest =>
      match markerAt marks (c :: rest) with
      | some m => .inl span :: .inr m :: split marks [] (rest.drop (m.1.length - 1))
      | none => split marks (span ++ [c]) rest
termination_by _ s => s.length
decreasing_by
  · simp only [length_drop, length_cons]
    omega
  · simp only [length_cons]
    omega

theorem split_nil (marks : List (List α × β)) (span : List α) :
    split marks span [] = [.inl span] := by
  rw [split]

variable {marks : List (List α × β)} {m : List α × β} {rest : List α}

theorem split_marker {c : α} (span : List α) (h : markerAt marks (c :: rest) = some m) :
    split marks span (c :: rest) =
      .inl span :: .inr m :: split marks [] (rest.drop (m.1.length - 1)) := by
  rw [split]
  simp only [h]

theorem split_letter {c : α} (span : List α) (h : markerAt marks (c :: rest) = none) :
    split marks span (c :: rest) = split marks (span ++ [c]) rest := by
  rw [split]
  simp only [h]

theorem markerAt_head {s : List α} (h : markerAt marks s = some m) : m ∈ marks ∧ m.1 <+: s := by
  obtain ⟨hmem, hpre⟩ : m ∈ marks ∧ _ := ⟨mem_of_find?_eq_some h, find?_some h⟩
  exact ⟨hmem, by simpa using hpre⟩

/-- Markers are not empty, so that the scan behind one starts behind its first
letter. -/
def Solid (marks : List (List α × β)) : Prop := ∀ m ∈ marks, m.1 ≠ []

theorem markerAt_drop (hsolid : Solid marks) {c : α} (h : markerAt marks (c :: rest) = some m) :
    m.1 ++ rest.drop (m.1.length - 1) = c :: rest := by
  obtain ⟨hmem, tail, htail⟩ := markerAt_head h
  obtain ⟨d, pat, hpat⟩ := exists_cons_of_ne_nil (hsolid m hmem)
  rw [hpat] at htail ⊢
  obtain ⟨rfl, hrest⟩ := cons.inj htail
  rw [← hrest]
  simp

theorem split_flatMap (hsolid : Solid marks) (span s : List α) :
    (split marks span s).flatMap (Sum.elim id Prod.fst) = span ++ s := by
  induction span, s using split.induct marks with
  | case1 span => simp [split_nil]
  | case2 span c rest m hm ih =>
    have hdrop := markerAt_drop hsolid hm
    rw [split_marker span hm, flatMap_cons, flatMap_cons, ih]
    simp only [Sum.elim_inl, Sum.elim_inr, id_eq, nil_append]
    rw [hdrop]
  | case3 span c rest hm ih =>
    rw [split_letter span hm, ih, append_assoc, singleton_append]

/-- What the letter of `Anchored` is for: it opens a marker and stands nowhere
else in a marker, and no marker continues another one. -/
structure Anchored (marks : List (List α × β)) (a : α) : Prop where
  not_behind : ∀ m ∈ marks, a ∉ m.1.tail
  apart : ∀ m ∈ marks, ∀ n ∈ marks, m.1 <+: n.1 → m = n

/-- In front of an anchored marker only the letters in front of it decide. -/
theorem markerAt_append {a : α} (hsep : Anchored marks a) (c : α) (left right : List α) :
    markerAt marks (c :: (left ++ a :: right)) = markerAt marks (c :: left) := by
  apply find?_congr
  intro m hm
  rw [decide_eq_decide, ← cons_append]
  constructor
  · intro h
    rcases prefix_or_prefix_of_prefix h (prefix_append (c :: left) (a :: right)) with
      hin | hover
    · exact hin
    · -- A longer marker would hold the anchor behind its first letter.
      obtain ⟨extra, hextra⟩ := hover
      cases extra with
      | nil => exact ⟨[], by simpa using hextra.symm⟩
      | cons d extra =>
        rw [← hextra] at h
        have hd : d = a := by
          obtain ⟨tail, htail⟩ := h
          rw [append_assoc, append_cancel_left_eq] at htail
          exact (cons.inj htail).1
        refine absurd ?_ (hsep.not_behind m hm)
        rw [← hextra, hd]
        simp
  · intro h
    exact h.trans (prefix_append (c :: left) (a :: right))

/-- A marker is read where it was written, as none of them continues another one. -/
theorem markerAt_written (hapart : ∀ m ∈ marks, ∀ n ∈ marks, m.1 <+: n.1 → m = n)
    {m : List α × β} (hm : m ∈ marks) (right : List α) :
    markerAt marks (m.1 ++ right) = some m := by
  cases hat : markerAt marks (m.1 ++ right) with
  | none =>
    have hno := find?_eq_none.mp hat m hm
    simp at hno
  | some n =>
    obtain ⟨hn, hpre⟩ := markerAt_head hat
    rcases prefix_or_prefix_of_prefix hpre (prefix_append m.1 right) with h | h
    · rw [hapart n hn m hm h]
    · rw [hapart m hm n hn h]

theorem split_append_marker {a : α} (hsep : Anchored marks a) (hm : m ∈ marks) {pat : List α}
    (hpat : m.1 = a :: pat) (span left right : List α) :
    split marks span (left ++ m.1 ++ right) =
      split marks span left ++ .inr m :: split marks [] right := by
  induction span, left using split.induct marks with
  | case1 span =>
    have hat := markerAt_written hsep.apart hm right
    rw [hpat, cons_append] at hat
    rw [split_nil, nil_append, hpat, cons_append, split_marker span hat, hpat]
    simp
  | case2 span c rest n hn ih =>
    have happ := markerAt_append hsep c rest (pat ++ right)
    have hshape : c :: rest ++ m.1 ++ right = c :: (rest ++ a :: (pat ++ right)) := by simp [hpat]
    have hlen : n.1.length - 1 ≤ rest.length := by
      have := (markerAt_head hn).2.length_le
      simp only [length_cons] at this
      omega
    rw [hshape, split_marker span (happ.trans hn), split_marker span hn,
      drop_append_of_le_length hlen]
    have hback : rest.drop (n.1.length - 1) ++ a :: (pat ++ right) =
        rest.drop (n.1.length - 1) ++ m.1 ++ right := by
      rw [hpat, append_assoc, cons_append]
    rw [hback, ih]
    rfl
  | case3 span c rest hn ih =>
    have happ := markerAt_append hsep c rest (pat ++ right)
    have hshape : c :: rest ++ m.1 ++ right = c :: (rest ++ a :: (pat ++ right)) := by simp [hpat]
    rw [hshape, split_letter span (happ.trans hn), split_letter span hn]
    have hback : rest ++ a :: (pat ++ right) = rest ++ m.1 ++ right := by
      rw [hpat, append_assoc, cons_append]
    rw [hback, ih]

end Split

/-! ### Merging neighbours -/

/-- The first adjacent pair whose rank is the lowest one below the bound; a
negative rank means that the pair is not listed. -/
def bestPair (rank : List α → List α → ℤ) : ℕ → Option ℕ → ℤ → List (List α) → Option ℕ
  | i, best, bestRank, x :: y :: rest =>
      if 0 ≤ rank x y ∧ rank x y < bestRank then
        bestPair rank (i + 1) (some i) (rank x y) (y :: rest)
      else bestPair rank (i + 1) best bestRank (y :: rest)
  | _, best, _, _ => best

/-- Puts the segment at a position together with its right neighbour. -/
def joinAt : ℕ → List (List α) → List (List α)
  | 0, x :: y :: rest => (x ++ y) :: rest
  | i + 1, x :: rest => x :: joinAt i rest
  | _, s => s

theorem joinAt_append (left : List (List α)) (x y : List α) (right : List (List α)) :
    joinAt left.length (left ++ x :: y :: right) = left ++ (x ++ y) :: right := by
  induction left with
  | nil => rfl
  | cons z left ih => simpa [joinAt] using ih

variable {rank : List α → List α → ℤ} {s : List (List α)}

/-- No listed neighbours are ranked below the bound. -/
def Done (rank : List α → List α → ℤ) (bound : ℤ) (s : List (List α)) : Prop :=
  s.IsChain fun x y => 0 ≤ rank x y → bound ≤ rank x y

/-- Of the listed neighbours below the bound those at `j` are the first of the
lowest rank. -/
def First (rank : List α → List α → ℤ) (bound : ℤ) (s : List (List α)) (j : ℕ) : Prop :=
  ∃ left x y right, s = left ++ x :: y :: right ∧ j = left.length ∧ 0 ≤ rank x y ∧
    rank x y < bound ∧ Done rank (rank x y) s ∧ Done rank (rank x y + 1) (left ++ [x])

theorem done_cons {bound : ℤ} {x y : List α} :
    Done rank bound (x :: y :: s) ↔
      (0 ≤ rank x y → bound ≤ rank x y) ∧ Done rank bound (y :: s) :=
  isChain_cons_cons

theorem First.cons {b r : ℤ} {x y : List α} {j : ℕ} (h : First rank b (y :: s) j) (hr : b ≤ r)
    (hb : 0 ≤ rank x y → b ≤ rank x y) : First rank r (x :: y :: s) (j + 1) := by
  obtain ⟨left, x', y', right, hs, rfl, hlisted, hlow, hdone, hfirst⟩ := h
  refine ⟨x :: left, x', y', right, by rw [hs]; rfl, rfl, hlisted, by omega,
    done_cons.mpr ⟨by omega, hdone⟩, ?_⟩
  cases left <;>
    obtain ⟨rfl, -⟩ := cons.inj hs <;>
    exact done_cons.mpr ⟨by omega, hfirst⟩

theorem bestPair_first (rank : List α → List α → ℤ) (s : List (List α)) (i : ℕ)
    (best : Option ℕ) (r : ℤ) :
    bestPair rank i best r s = best ∧ Done rank r s ∨
      ∃ j, bestPair rank i best r s = some (i + j) ∧ First rank r s j := by
  induction s generalizing i best r with
  | nil => exact Or.inl ⟨by simp [bestPair], by simp [Done]⟩
  | cons x rest ih =>
    cases rest with
    | nil => exact Or.inl ⟨by simp [bestPair], by simp [Done]⟩
    | cons y rest =>
      rw [bestPair]
      split
      · rename_i hrank
        rcases ih (i + 1) (some i) (rank x y) with ⟨hbest, hdone⟩ | ⟨j, hbest, hj⟩
        · exact Or.inr ⟨0, hbest, [], x, y, rest, rfl, rfl, hrank.1, hrank.2,
            done_cons.mpr ⟨by omega, hdone⟩, by simp [Done]⟩
        · exact Or.inr ⟨j + 1, by rw [hbest, Nat.add_right_comm, Nat.add_assoc],
            hj.cons hrank.2.le (by omega)⟩
      · rcases ih (i + 1) best r with ⟨hbest, hdone⟩ | ⟨j, hbest, hj⟩
        · exact Or.inl ⟨hbest, done_cons.mpr ⟨by omega, hdone⟩⟩
        · exact Or.inr ⟨j + 1, by rw [hbest, Nat.add_right_comm, Nat.add_assoc],
            hj.cons le_rfl (by omega)⟩

theorem bestPair_split {j : ℕ} {r : ℤ} (h : bestPair rank 0 none r s = some j) :
    ∃ left x y right, s = left ++ x :: y :: right ∧ j = left.length ∧ 0 ≤ rank x y := by
  rcases bestPair_first rank s 0 none r with
    ⟨hnone, -⟩ | ⟨i, hi, left, x, y, right, hs, hleft, hr, -⟩
  · simp [hnone] at h
  · exact ⟨left, x, y, right, hs, by simp_all, hr⟩

theorem joinAt_length_lt {j : ℕ} {r : ℤ} (h : bestPair rank 0 none r s = some j) :
    (joinAt j s).length < s.length := by
  obtain ⟨left, x, y, right, rfl, rfl, -⟩ := bestPair_split h
  rw [joinAt_append]
  simp

/-- Joins the best pair until there is none. -/
def mergeAll (rank : List α → List α → ℤ) (bound : ℤ) (s : List (List α)) : List (List α) :=
  match h : bestPair rank 0 none bound s with
  | none => s
  | some i =>
      have := joinAt_length_lt h
      mergeAll rank bound (joinAt i s)
termination_by s.length

/-- Every join of the merging takes the first listed neighbours of the lowest
rank, and none are left. -/
theorem mergeAll_greedy (rank : List α → List α → ℤ) (bound : ℤ) (s : List (List α)) :
    Relation.ReflTransGen (fun s t => ∃ j, First rank bound s j ∧ t = joinAt j s) s
      (mergeAll rank bound s) ∧ Done rank bound (mergeAll rank bound s) := by
  induction s using mergeAll.induct rank bound with
  | case1 s h =>
    have hmerge : mergeAll rank bound s = s := by
      rw [mergeAll]
      split <;> simp_all
    rcases bestPair_first rank s 0 none bound with ⟨-, hdone⟩ | ⟨j, hj, -⟩
    · rw [hmerge]
      exact ⟨.refl, hdone⟩
    · simp [h] at hj
  | case2 s i h _ ih =>
    have hmerge : mergeAll rank bound s = mergeAll rank bound (joinAt i s) := by
      rw [mergeAll]
      split <;> simp_all
    rw [hmerge]
    rcases bestPair_first rank s 0 none bound with ⟨hnone, -⟩ | ⟨j, hj, hfirst⟩
    · simp [h] at hnone
    · obtain rfl : i = j := by simpa [h] using hj
      exact ⟨ih.1.head ⟨i, hfirst, rfl⟩, ih.2⟩

/-- Whatever holds of the segments and is kept by joining two listed neighbours
holds when the merging stops. -/
theorem mergeAll_invariant {bound : ℤ} {P : List (List α) → Prop}
    (hjoin : ∀ left x y right, 0 ≤ rank x y → P (left ++ x :: y :: right) →
      P (left ++ (x ++ y) :: right))
    (s : List (List α)) (hs : P s) : P (mergeAll rank bound s) := by
  obtain ⟨hrun, -⟩ := mergeAll_greedy rank bound s
  generalize mergeAll rank bound s = t at hrun ⊢
  induction hrun with
  | refl => exact hs
  | tail _ hstep ih =>
    obtain ⟨j, ⟨left, x, y, right, rfl, rfl, hrank, -⟩, rfl⟩ := hstep
    rw [joinAt_append]
    exact hjoin left x y right hrank ih

end Ds4Studio.Segment
