import Ds4Studio.Lib.Search
import Ds4Studio.Lib.Segment

/-!
Texts that are written from letters and markers. Cutting such a text at its markers finds
the markers it was written from, and no others, if and only if no marker is spelled from
one of its letters on.
-/

namespace Ds4Studio.Segment

open List

variable {α β : Type*}

/-- The text of letters and markers. -/
def written (a : List (α ⊕ (List α × β))) : List α := a.flatMap (Sum.elim (fun c => [c]) Prod.fst)

/-- The letters between two markers as one span. The first list holds the letters since
the last marker. -/
def runs : List α → List (α ⊕ (List α × β)) → List (List α ⊕ (List α × β))
  | span, [] => [.inl span]
  | span, .inl c :: a => runs (span ++ [c]) a
  | span, .inr m :: a => .inl span :: .inr m :: runs [] a

/-- The letters and markers of segments. -/
def elements (segments : List (List α ⊕ (List α × β))) : List (α ⊕ (List α × β)) :=
  segments.flatMap (Sum.elim (List.map .inl) fun m => [.inr m])

@[simp] theorem written_nil : written ([] : List (α ⊕ (List α × β))) = [] := rfl

@[simp] theorem written_inl (c : α) (a : List (α ⊕ (List α × β))) :
    written (.inl c :: a) = c :: written a := rfl

@[simp] theorem written_inr (m : List α × β) (a : List (α ⊕ (List α × β))) :
    written (.inr m :: a) = m.1 ++ written a := rfl

@[simp] theorem elements_inl (span : List α) (segments : List (List α ⊕ (List α × β))) :
    elements (.inl span :: segments) = span.map .inl ++ elements segments := rfl

@[simp] theorem elements_inr (m : List α × β) (segments : List (List α ⊕ (List α × β))) :
    elements (.inr m :: segments) = .inr m :: elements segments := rfl

@[simp] theorem elements_nil : elements ([] : List (List α ⊕ (List α × β))) = [] := rfl

theorem runs_letters (front span : List α) (a : List (α ⊕ (List α × β))) :
    runs front (span.map .inl ++ a) = runs (front ++ span) a := by
  induction span generalizing front with
  | nil => simp
  | cons c span ih => simp [runs, ih]

section Split

variable [DecidableEq α] {marks : List (List α × β)}

theorem runs_elements_split (span s : List α) :
    runs [] (elements (split marks span s)) = split marks span s := by
  induction span, s using split.induct marks with
  | case1 span =>
    rw [split_nil, elements_inl, runs_letters]
    rfl
  | case2 span c rest m hm ih =>
    rw [split_marker span hm, elements_inl, elements_inr, runs_letters, nil_append, runs, ih]
  | case3 span c rest hm ih =>
    rw [split_letter span hm]
    exact ih

/-- No marker is spelled from a letter on. -/
def Unspelled (marks : List (List α × β)) : List (α ⊕ (List α × β)) → Prop
  | [] => True
  | .inl c :: a => markerAt marks (c :: written a) = none ∧ Unspelled marks a
  | .inr _ :: a => Unspelled marks a

theorem split_written_marker (hsolid : Solid marks)
    (hapart : ∀ m ∈ marks, ∀ n ∈ marks, m.1 <+: n.1 → m = n) {m : List α × β} (hm : m ∈ marks)
    (span right : List α) :
    split marks span (m.1 ++ right) = .inl span :: .inr m :: split marks [] right := by
  obtain ⟨c, pat, hpat⟩ := exists_cons_of_ne_nil (hsolid m hm)
  have hat := markerAt_written hapart hm right
  rw [hpat, cons_append] at hat ⊢
  rw [split_marker span hat, hpat]
  simp

theorem split_written (hsolid : Solid marks)
    (hapart : ∀ m ∈ marks, ∀ n ∈ marks, m.1 <+: n.1 → m = n) (span : List α)
    {a : List (α ⊕ (List α × β))} (hmem : ∀ m, .inr m ∈ a → m ∈ marks)
    (h : Unspelled marks a) : split marks span (written a) = runs span a := by
  induction a generalizing span with
  | nil => exact split_nil marks span
  | cons s a ih =>
    have hrest : ∀ m, .inr m ∈ a → m ∈ marks := fun m hm => hmem m (mem_cons_of_mem s hm)
    cases s with
    | inl c =>
      obtain ⟨hno, htail⟩ := h
      rw [written_inl, split_letter span hno]
      exact ih (span ++ [c]) hrest htail
    | inr m =>
      rw [written_inr, split_written_marker hsolid hapart (hmem m mem_cons_self), runs,
        ih [] hrest h]

theorem elements_split_front (front span s : List α) :
    elements (split marks (front ++ span) s) =
      front.map .inl ++ elements (split marks span s) := by
  induction span, s using split.induct marks with
  | case1 span => simp [split_nil]
  | case2 span c rest m hm ih =>
    rw [split_marker _ hm, split_marker _ hm]
    simp
  | case3 span c rest hm ih =>
    rw [split_letter _ hm, split_letter _ hm, append_assoc]
    exact ih

theorem elements_split_between (hsolid : Solid marks) {d : α} (hd : ∀ m ∈ marks, d ∉ m.1)
    (span left right : List α) :
    elements (split marks span (left ++ d :: right)) =
      elements (split marks span left) ++ .inl d :: elements (split marks [] right) := by
  have hbehind : ∀ c (rest : List α), markerAt marks (c :: (rest ++ d :: right)) =
      markerAt marks (c :: rest) := by
    intro c rest
    apply find?_congr
    intro m hm
    rw [decide_eq_decide, ← cons_append]
    exact Search.prefix_append_cons_iff (hd m hm)
  induction span, left using split.induct marks with
  | case1 span =>
    have hno : markerAt marks (d :: right) = none := by
      rw [markerAt, find?_eq_none]
      intro m hm hpre
      obtain ⟨c, pat, hpat⟩ := exists_cons_of_ne_nil (hsolid m hm)
      rw [decide_eq_true_eq, hpat, cons_prefix_cons] at hpre
      exact hd m hm (by simp [hpat, hpre.1])
    have hfront : elements (split marks (span ++ [d]) right) =
        (span ++ [d]).map .inl ++ elements (split marks [] right) := by
      have hempty : span ++ [d] = (span ++ [d]) ++ [] := (append_nil _).symm
      rw [hempty, elements_split_front, ← hempty]
    rw [nil_append, split_letter span hno, hfront, split_nil]
    simp
  | case2 span c rest n hn ih =>
    have hlen : n.1.length - 1 ≤ rest.length := by
      have := (markerAt_head hn).2.length_le
      simp only [length_cons] at this
      omega
    rw [cons_append, split_marker span ((hbehind c rest).trans hn), split_marker span hn,
      drop_append_of_le_length hlen, elements_inl, elements_inr, ih]
    simp
  | case3 span c rest hn ih =>
    rw [cons_append, split_letter span ((hbehind c rest).trans hn), split_letter span hn, ih]

theorem split_eq_span (span : List α) {s : List α} (h : ∀ m ∈ marks, ¬ m.1 <:+: s) :
    split marks span s = [.inl (span ++ s)] := by
  induction s generalizing span with
  | nil => rw [split_nil, append_nil]
  | cons c rest ih =>
    have hno : markerAt marks (c :: rest) = none := by
      rw [markerAt, find?_eq_none]
      intro m hm hpre
      exact h m hm (of_decide_eq_true hpre).isInfix
    have hrest : ∀ m ∈ marks, ¬ m.1 <:+: rest := by
      intro m hm hin
      exact h m hm (hin.trans (suffix_cons c rest).isInfix)
    rw [split_letter span hno, ih (span ++ [c]) hrest, append_assoc]
    rfl

/-- A text without markers stays plain between two letters that occur in no marker. -/
theorem elements_split_middle (hsolid : Solid marks) {d e : α} (hd : ∀ m ∈ marks, d ∉ m.1)
    (he : ∀ m ∈ marks, e ∉ m.1) (left : List α) {middle : List α}
    (hmiddle : ∀ m ∈ marks, ¬ m.1 <:+: middle) (right : List α) :
    elements (split marks [] (left ++ [d] ++ middle ++ e :: right)) =
      elements (split marks [] (left ++ [d])) ++ middle.map .inl ++
        elements (split marks [] (e :: right)) := by
  have hleft : elements (split marks [] (left ++ [d])) =
      elements (split marks [] left) ++ [.inl d] := by
    rw [elements_split_between hsolid hd, split_nil]
    rfl
  have hright : elements (split marks [] (e :: right)) =
      .inl e :: elements (split marks [] right) := by
    have hcut := elements_split_between hsolid he [] [] right
    rw [split_nil] at hcut
    exact hcut
  have hin : elements (split marks [] (middle ++ e :: right)) =
      middle.map .inl ++ .inl e :: elements (split marks [] right) := by
    rw [elements_split_between hsolid he, split_eq_span [] hmiddle]
    simp
  have hshape : left ++ [d] ++ middle ++ e :: right = left ++ d :: (middle ++ e :: right) := by
    simp only [append_assoc, cons_append, nil_append]
  rw [hshape, elements_split_between hsolid hd, hin, hleft, hright]
  simp

end Split

end Ds4Studio.Segment
