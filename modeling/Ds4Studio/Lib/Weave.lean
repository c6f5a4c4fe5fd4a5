import Mathlib.Data.List.Basic
import Mathlib.Tactic.Ring

/-!
A list with marked segments: gaps and segments in turn, and a tail. The positions of
the segments follow from their lengths; they delimit the segments, increase and do not
overlap. A segment can be replaced without touching the gaps or the tail, and what
comes behind moves by the difference of the lengths.
-/

namespace Ds4Studio.Weave

open List

variable {α τ : Type*}

/-- Where a marked segment lies, and what it was made from. -/
structure Span (τ : Type*) where
  start : ℤ
  stop : ℤ
  text : τ

/-- The elements from one position up to another; positions outside the list are cut off. -/
def range (l : List α) (start stop : ℤ) : List α := (l.take stop.toNat).drop start.toNat

/-- Gaps and segments in turn. -/
def weave (seg : τ → List α) : List (List α × τ) → List α
  | [] => []
  | (gap, t) :: parts => gap ++ seg t ++ weave seg parts

/-- The positions of the segments, from the position the first gap starts at. -/
def spansFrom (seg : τ → List α) : ℤ → List (List α × τ) → List (Span τ)
  | _, [] => []
  | pos, (gap, t) :: parts =>
      ⟨pos + gap.length, pos + gap.length + (seg t).length, t⟩ ::
        spansFrom seg (pos + gap.length + (seg t).length) parts

theorem range_middle (l m r : List α) : range (l ++ m ++ r) l.length (l.length + m.length) = m := by
  have htake : (l ++ m ++ r).take (l.length + m.length) = l ++ m := by
    rw [← length_append]
    exact take_left
  rw [range, ← Int.natCast_add, Int.toNat_natCast, Int.toNat_natCast, htake]
  exact drop_left

variable {seg : τ → List α}

theorem weave_append (l r : List (List α × τ)) :
    weave seg (l ++ r) = weave seg l ++ weave seg r := by
  induction l with
  | nil => rfl
  | cons part l ih => simp [weave, ih]

theorem weave_map {ρ : Type*} (f : ρ → τ) (parts : List (List α × ρ)) :
    weave seg (parts.map fun p => (p.1, f p.2)) = weave (fun t => seg (f t)) parts := by
  induction parts with
  | nil => rfl
  | cons part parts ih => simp [weave, ih]

variable (pos : ℤ)

theorem spansFrom_append (l r : List (List α × τ)) :
    spansFrom seg pos (l ++ r) =
      spansFrom seg pos l ++ spansFrom seg (pos + (weave seg l).length) r := by
  induction l generalizing pos with
  | nil => simp [spansFrom, weave]
  | cons part l ih =>
    simp only [cons_append, spansFrom, weave, length_append, Nat.cast_add, ih]
    rw [add_assoc, add_assoc]

variable (parts : List (List α × τ))

theorem spansFrom_text : (spansFrom seg pos parts).map Span.text = parts.map Prod.snd := by
  induction parts generalizing pos with
  | nil => rfl
  | cons part parts ih =>
    simp [spansFrom, ih]

theorem spansFrom_take (n : ℕ) :
    (spansFrom seg pos parts).take n = spansFrom seg pos (parts.take n) := by
  induction parts generalizing pos n with
  | nil => simp [spansFrom]
  | cons part parts ih =>
    cases n with
    | zero => simp [spansFrom]
    | succ n => simp [spansFrom, ih]

theorem spansFrom_drop (n : ℕ) :
    (spansFrom seg pos parts).drop n =
      spansFrom seg (pos + (weave seg (parts.take n)).length) (parts.drop n) := by
  induction parts generalizing pos n with
  | nil => simp [spansFrom]
  | cons part parts ih =>
    cases n with
    | zero => simp [weave]
    | succ n =>
      simp only [spansFrom, drop_succ_cons, take_succ_cons, ih, weave, length_append, Nat.cast_add]
      rw [add_assoc, add_assoc, add_assoc]

theorem spansFrom_shift (pos d : ℤ) (parts : List (List α × τ)) :
    (spansFrom seg pos parts).map (fun s => { s with start := s.start + d, stop := s.stop + d }) =
      spansFrom seg (pos + d) parts := by
  induction parts generalizing pos with
  | nil => rfl
  | cons part parts ih =>
    obtain ⟨gap, t⟩ := part
    have hstart : pos + gap.length + d = pos + d + gap.length := by ring
    have hstop : pos + gap.length + (seg t).length + d =
        pos + d + gap.length + (seg t).length := by ring
    simp only [spansFrom, map_cons, ih, hstart, hstop]

theorem spansFrom_delimit (l : List α) (parts : List (List α × τ)) (r : List α) {s : Span τ}
    (hs : s ∈ spansFrom seg l.length parts) :
    (l.length : ℤ) ≤ s.start ∧ s.stop = s.start + (seg s.text).length ∧
      s.stop ≤ l.length + (weave seg parts).length ∧
      range (l ++ weave seg parts ++ r) s.start s.stop = seg s.text := by
  induction parts generalizing l with
  | nil => simp [spansFrom] at hs
  | cons part parts ih =>
    obtain ⟨gap, t⟩ := part
    simp only [spansFrom, mem_cons] at hs
    rcases hs with rfl | hs
    · refine ⟨by simp, rfl, ?_, ?_⟩
      · simp only [weave, length_append, Nat.cast_add]
        omega
      · have hmid := range_middle (l ++ gap) (seg t) (weave seg parts ++ r)
        simp only [length_append, Nat.cast_add, append_assoc] at hmid
        simpa only [weave, append_assoc] using hmid
    · have hpos : (l.length : ℤ) + gap.length + (seg t).length =
          ((l ++ gap ++ seg t).length : ℕ) := by
        simp only [length_append, Nat.cast_add]
      rw [hpos] at hs
      obtain ⟨hle, hstop, hin, hrange⟩ := ih (l ++ gap ++ seg t) hs
      refine ⟨by omega, hstop, ?_, ?_⟩
      · simp only [weave, length_append, Nat.cast_add]
        omega
      · simpa only [weave, append_assoc] using hrange

theorem spansFrom_pairwise (l : List α) (parts : List (List α × τ)) :
    (spansFrom seg l.length parts).Pairwise fun s s' => s.stop ≤ s'.start := by
  induction parts generalizing l with
  | nil => exact List.Pairwise.nil
  | cons part parts ih =>
    obtain ⟨gap, t⟩ := part
    have hpos : (l.length : ℤ) + gap.length + (seg t).length =
        ((l ++ gap ++ seg t).length : ℕ) := by
      simp only [length_append, Nat.cast_add]
    simp only [spansFrom, pairwise_cons, hpos]
    refine ⟨?_, ih (l ++ gap ++ seg t)⟩
    intro s hs
    exact (spansFrom_delimit (l ++ gap ++ seg t) parts [] hs).1

theorem exists_front (front : List α) (parts : List (List α × τ)) (tail : List α) :
    ∃ parts' tail', front ++ (weave seg parts ++ tail) = weave seg parts' ++ tail' ∧
      spansFrom seg front.length parts = spansFrom seg 0 parts' := by
  cases parts with
  | nil => exact ⟨[], front ++ tail, rfl, rfl⟩
  | cons part parts =>
    obtain ⟨gap, t⟩ := part
    refine ⟨(front ++ gap, t) :: parts, tail, by simp [weave], ?_⟩
    simp only [spansFrom, length_append, Nat.cast_add, zero_add]

end Ds4Studio.Weave
