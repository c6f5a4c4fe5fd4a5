import Mathlib.Algebra.Order.Ring.Int

/-!
The schedule of continued checkpoints. A cold store that lands on a boundary marks
it as handled before the prefill reaches it and gives it back if the store fails.
-/

namespace Ds4Studio.Kvstore

open List

/-- The options of a store that its schedule depends on. -/
structure Boundaries where
  enabled : Bool
  minTokens : ℤ
  continuedInterval : ℤ
  boundaryTrim : ℤ
  boundaryAlign : ℤ
  min_pos : 0 < minTokens
  trim_nonneg : 0 ≤ boundaryTrim

variable (o : Boundaries)

/-- `ds4_kvstore_store_len` -/
def storeLen (tokens : ℤ) : ℤ :=
  if o.minTokens + o.boundaryTrim < tokens then
    let stable := tokens - o.boundaryTrim
    let stable := if 0 < o.boundaryAlign then stable - stable.tmod o.boundaryAlign else stable
    if o.minTokens ≤ stable then stable else tokens
  else tokens

/-- `kv_cache_continued_step` -/
def continuedStep : ℤ :=
  if o.enabled = false ∨ o.continuedInterval ≤ 0 then 0
  else if 0 < o.boundaryAlign then
    let step := ((o.continuedInterval + o.boundaryAlign - 1).bmod (2 ^ 32)).tdiv o.boundaryAlign *
      o.boundaryAlign
    if step ≤ 0 then o.boundaryAlign else step
  else o.continuedInterval

/-- `ds4_kvstore_continued_store_target` -/
def continuedStoreTarget (last live : ℤ) : ℤ :=
  if continuedStep o ≤ 0 then 0
  else if live < o.minTokens then 0
  else if live.tmod (continuedStep o) ≠ 0 then 0
  else if live ≤ last then 0
  else live

/-- `ds4_kvstore_note_store` -/
def noteStore (last tokens : ℤ) : ℤ := if last < tokens then tokens else last

/-- `ds4_kvstore_suppress_continued_store`: its result and the schedule behind it. -/
def suppressContinuedStore (last tokens : ℤ) : ℤ × ℤ :=
  if continuedStoreTarget o last tokens ≠ tokens then (-1, last) else (last, noteStore last tokens)

/-- `ds4_kvstore_restore_suppressed_continued` -/
def restoreSuppressedContinued (last old suppressed : ℤ) : ℤ :=
  if 0 ≤ old ∧ last = suppressed then old else last

/-- `kv_cache_maybe_store_continued`: the schedule and the checkpoint written, if any. -/
def maybeStoreContinued (last live : ℤ) (stored : Bool) : ℤ × Option ℤ :=
  let target := continuedStoreTarget o last live
  if target = 0 ∨ stored = false then (last, none) else (noteStore last target, some target)

/-- The schedule of a session, what its suppressions returned and nobody has given
back yet, and the continued checkpoints written so far, latest first. -/
structure Ledger where
  last : ℤ
  held : List (ℤ × ℤ)
  written : List ℤ

/-- The calls of a session. A cold store suppresses only lengths of at least the
minimum and gives a result back at most once. -/
inductive Ledger.Step (s : Ledger) : Ledger → Prop
  | continued (live : ℤ) (stored : Bool) :
      Step s ⟨(maybeStoreContinued o s.last live stored).1, s.held,
        (maybeStoreContinued o s.last live stored).2.toList ++ s.written⟩
  | note (tokens : ℤ) : Step s { s with last := noteStore s.last tokens }
  | suppress (tokens : ℤ) (hlong : o.minTokens ≤ tokens) :
      Step s { s with
        last := (suppressContinuedStore o s.last tokens).2
        held := ((suppressContinuedStore o s.last tokens).1, tokens) :: s.held }
  | restore (front back : List (ℤ × ℤ)) (p : ℤ × ℤ) (hheld : s.held = front ++ p :: back) :
      Step s { s with
        last := restoreSuppressedContinued s.last p.1 p.2
        held := front ++ back }

inductive Ledger.Reached : Ledger → Prop
  | start : Reached ⟨0, [], []⟩
  | step {s t : Ledger} (h : Reached s) (hstep : s.Step o t) : Reached t

/-- A result that was not given back either still has every written checkpoint below
it or was overtaken by one. -/
structure Ledger.Sound (s : Ledger) : Prop where
  written : s.written.Pairwise (· > ·)
  multiples : ∀ w ∈ s.written, o.minTokens ≤ w ∧ continuedStep o ∣ w
  last : 0 ≤ s.last ∧ ∀ w ∈ s.written, w ≤ s.last
  held : ∀ p ∈ s.held, 0 ≤ p.1 → p.1 < p.2 ∧ p.2 ≤ s.last ∧
    ((∀ w ∈ s.written, w ≤ p.1) ∨ ∃ w ∈ s.written, p.2 < w)
  chain : s.held.Pairwise fun newer older => 0 ≤ newer.1 → 0 ≤ older.1 → older.2 ≤ newer.1

variable {o}

theorem target_spec {last live : ℤ} (h : continuedStoreTarget o last live ≠ 0) :
    continuedStoreTarget o last live = live ∧ last < live ∧ o.minTokens ≤ live ∧
      continuedStep o ∣ live := by
  unfold continuedStoreTarget at h ⊢
  split_ifs at h with hstep hmin hmod hlast
  all_goals try exact absurd rfl h
  rw [if_neg hstep, if_neg hmin, if_neg hmod, if_neg hlast]
  exact ⟨rfl, not_le.mp hlast, not_lt.mp hmin, Int.dvd_of_tmod_eq_zero (not_not.mp hmod)⟩

theorem Ledger.Sound.step {s t : Ledger} (h : s.Sound o) (hstep : s.Step o t) : t.Sound o := by
  cases hstep with
  | continued live stored =>
    by_cases hnone : continuedStoreTarget o s.last live = 0 ∨ stored = false
    · simpa [maybeStoreContinued, hnone] using h
    · rw [not_or] at hnone
      obtain ⟨htarget, hlast, hmin, hdvd⟩ := target_spec hnone.1
      simp only [maybeStoreContinued, htarget, noteStore, hlast, if_true, hnone.2,
        show live ≠ 0 by omega, false_or]
      refine ⟨pairwise_cons.mpr ⟨fun w hw => ?_, h.written⟩, ?_, ⟨h.last.1.trans hlast.le, ?_⟩,
        ?_, h.chain⟩
      · exact lt_of_le_of_lt (h.last.2 w hw) hlast
      · exact forall_mem_cons.mpr ⟨⟨hmin, hdvd⟩, h.multiples⟩
      · exact forall_mem_cons.mpr ⟨le_rfl, fun w hw => (h.last.2 w hw).trans hlast.le⟩
      · intro p hp hold
        obtain ⟨hlt, hle, -⟩ := h.held p hp hold
        exact ⟨hlt, hle.trans hlast.le, .inr ⟨live, mem_cons_self, by omega⟩⟩
  | note tokens =>
    have hle : s.last ≤ noteStore s.last tokens := by
      unfold noteStore
      split <;> omega
    refine ⟨h.written, h.multiples, ⟨h.last.1.trans hle, fun w hw => (h.last.2 w hw).trans hle⟩,
      fun p hp hold => ?_, h.chain⟩
    obtain ⟨hlt, hbelow, hwritten⟩ := h.held p hp hold
    exact ⟨hlt, hbelow.trans hle, hwritten⟩
  | suppress tokens hlong =>
    by_cases htarget : continuedStoreTarget o s.last tokens = tokens
    · have hpos := o.min_pos
      have hlast := (target_spec (by omega : continuedStoreTarget o s.last tokens ≠ 0)).2.1
      simp only [suppressContinuedStore, htarget, ne_eq, not_true, if_false, noteStore, hlast,
        if_true]
      refine ⟨h.written, h.multiples, ⟨h.last.1.trans hlast.le, fun w hw =>
        (h.last.2 w hw).trans hlast.le⟩, forall_mem_cons.mpr
          ⟨fun _ => ⟨hlast, le_rfl, .inl h.last.2⟩, fun p hp hold => ?_⟩,
        pairwise_cons.mpr ⟨fun p hp _ hold => (h.held p hp hold).2.1, h.chain⟩⟩
      obtain ⟨hlt, hbelow, hwritten⟩ := h.held p hp hold
      exact ⟨hlt, hbelow.trans hlast.le, hwritten⟩
    · simp only [suppressContinuedStore, ne_eq, htarget, not_false_eq_true, if_true]
      exact ⟨h.written, h.multiples, h.last, forall_mem_cons.mpr ⟨nofun, h.held⟩,
        pairwise_cons.mpr ⟨fun _ _ => nofun, h.chain⟩⟩
  | restore front back p hheld =>
    have hmem : ∀ q ∈ front ++ back, q ∈ s.held := by
      intro q hq
      rw [hheld]
      simp only [mem_append, mem_cons] at hq ⊢
      tauto
    have hchain := h.chain
    rw [hheld, pairwise_append, pairwise_cons] at hchain
    obtain ⟨hfront, ⟨hback, hrest⟩, hacross⟩ := hchain
    have hkept : (front ++ back).Pairwise _ := pairwise_append.mpr
      ⟨hfront, hrest, fun a ha b hb => hacross a ha b (mem_cons_of_mem _ hb)⟩
    unfold restoreSuppressedContinued
    split
    · rename_i hgives
      obtain ⟨hlt, -, hwritten⟩ := h.held p (by rw [hheld]; simp) hgives.1
      have hbelow : ∀ w ∈ s.written, w ≤ p.1 := by
        rcases hwritten with hbelow | ⟨w, hw, hover⟩
        · exact hbelow
        · have := h.last.2 w hw
          omega
      refine ⟨h.written, h.multiples, ⟨hgives.1, hbelow⟩, fun q hq hold => ?_, hkept⟩
      obtain ⟨hq₁, hq₂, hwritten⟩ := h.held q (hmem q hq) hold
      refine ⟨hq₁, ?_, hwritten⟩
      rcases mem_append.mp hq with hq | hq
      · -- what was suppressed later lies above the schedule
        have := hacross q hq p mem_cons_self hold hgives.1
        omega
      · exact hback q hq hgives.1 hold
    · exact ⟨h.written, h.multiples, h.last, fun q hq => h.held q (hmem q hq), hkept⟩

theorem Ledger.Reached.sound {s : Ledger} (h : s.Reached o) : s.Sound o := by
  induction h with
  | start => exact ⟨.nil, by simp, ⟨le_rfl, by simp⟩, by simp, .nil⟩
  | step _ hstep ih => exact ih.step hstep

/-- Continued checkpoints are written at increasing multiples of the step, a cold
store that fails gives back the schedule it marked, and a store length is the whole
prompt or an aligned length not below the minimum. -/
structure FollowsSchedule (o : Boundaries) : Prop where
  written : ∀ s : Ledger, s.Reached o → s.written.Pairwise (· > ·) ∧
    ∀ w ∈ s.written, 0 < w ∧ continuedStep o ∣ w
  restored : ∀ (last tokens : ℤ) (attempts : List (ℤ × Bool)), 0 ≤ last → o.minTokens ≤ tokens →
    (∀ a ∈ attempts, a.1 ≤ tokens) → (suppressContinuedStore o last tokens).1 ≠ -1 →
      restoreSuppressedContinued
        (attempts.foldl (fun last a => (maybeStoreContinued o last a.1 a.2).1)
          (suppressContinuedStore o last tokens).2)
        (suppressContinuedStore o last tokens).1 tokens = last
  lengths : ∀ tokens, storeLen o tokens ≤ tokens ∧ (storeLen o tokens = tokens ∨
    o.minTokens ≤ storeLen o tokens ∧ (0 < o.boundaryAlign → o.boundaryAlign ∣ storeLen o tokens))

/-- The default options. -/
def defaultBoundaries : Boundaries := ⟨true, 512, 10000, 32, 2048, by decide, by decide⟩

end Ds4Studio.Kvstore
