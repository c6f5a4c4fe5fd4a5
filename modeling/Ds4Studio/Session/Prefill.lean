import Ds4Studio.Session.Sync

/-!
The chunks of a prefill of a range, and what a run of them leaves recorded. A
resumed range is cut where a cold prompt is cut.
-/

namespace Ds4Studio.Session

open List

variable {Tok Log : Type*}

/-- The chunks of `metal_graph_prefill_chunked_range` from a position on. -/
def chunks (cfg : Config) (start stop : ℕ) : ℕ → ℕ → List (ℕ × ℕ)
  | 0, _ => []
  | fuel + 1, pos =>
      if pos < stop then
        (pos, pos + chunkSize cfg start stop pos) ::
          chunks cfg start stop fuel (pos + chunkSize cfg start stop pos)
      else []

/-- The chunks a run gets through before it ends, fails or is cancelled. -/
def evaluated (cfg : Config) (o : SyncOutcomes) (start stop : ℕ) : ℕ → ℕ → ℕ → List (ℕ × ℕ)
  | 0, _, _ => []
  | fuel + 1, i, pos =>
      if pos < stop ∧ o.cancel (2 * i) = false ∧ o.step i = true then
        (pos, pos + chunkSize cfg start stop pos) ::
          if o.cancel (2 * i + 1) then []
          else evaluated cfg o start stop fuel (i + 1) (pos + chunkSize cfg start stop pos)
      else []

/-- The progress reports of a run: its start and the end of every chunk it gets through. -/
def reports (start : ℕ) (cs : List (ℕ × ℕ)) : List ℕ := start :: cs.map Prod.snd

/-- Non-empty chunks that follow each other from one position to another. -/
def Covers : ℕ → ℕ → List (ℕ × ℕ) → Prop
  | pos, stop, [] => pos = stop
  | pos, stop, c :: cs => c.1 = pos ∧ pos < c.2 ∧ Covers c.2 stop cs

variable {cfg : Config} {start stop : ℕ}

theorem chunks_cover (hcap : cfg.prefillCap ≠ 0) (hraw : start = 0 ∨ cfg.rawCap ≠ 0) (fuel pos : ℕ)
    (hpos : pos ≤ stop) (hfuel : stop - pos ≤ fuel) :
    Covers pos stop (chunks cfg start stop fuel pos) := by
  induction fuel generalizing pos with
  | zero => exact (by omega : pos = stop)
  | succ fuel ih =>
    rw [chunks]
    split
    · rename_i hlt
      have hsize := chunkSize_pos hcap hraw hlt
      have hbound := chunkSize_le cfg start stop pos
      exact ⟨rfl, by simp only; omega, ih _ (by omega) (by omega)⟩
    · exact (by omega : pos = stop)

theorem chunkSize_cold (cfg : Config) (stop pos : ℕ) :
    chunkSize cfg 0 stop pos = min (stop - pos) cfg.prefillCap := by
  simp [chunkSize]

theorem chunkSize_resumed (cfg : Config) (stop : ℕ) (hstart : start ≠ 0) (pos : ℕ) :
    chunkSize cfg start stop pos ≤ cfg.rawCap ∧
      chunkSize cfg start stop pos ≤ cfg.prefillCap - pos % cfg.prefillCap := by
  unfold chunkSize
  simp only [hstart, if_false, ne_eq, not_false_eq_true, true_and]
  split <;> omega

/-- A cold prompt has a chunk from every multiple of the cap in front of its end. -/
theorem mem_chunks_cold (hcap : cfg.prefillCap ≠ 0) {q : ℕ} (hq : q * cfg.prefillCap < stop)
    (fuel k : ℕ) (hk : k ≤ q) (hfuel : stop - k * cfg.prefillCap ≤ fuel) :
    (q * cfg.prefillCap, min stop ((q + 1) * cfg.prefillCap)) ∈
      chunks cfg 0 stop fuel (k * cfg.prefillCap) := by
  have hfirst := Nat.mul_le_mul_right cfg.prefillCap hk
  induction fuel generalizing k with
  | zero => omega
  | succ fuel ih =>
    have hnext : (k + 1) * cfg.prefillCap = k * cfg.prefillCap + cfg.prefillCap := Nat.succ_mul _ _
    rw [chunks, if_pos (by omega), chunkSize_cold]
    rcases hk.eq_or_lt with rfl | hlt
    · rw [hnext, show min stop (k * cfg.prefillCap + cfg.prefillCap) =
        k * cfg.prefillCap + min (stop - k * cfg.prefillCap) cfg.prefillCap by omega]
      exact mem_cons_self
    · have hlater : (k + 1) * cfg.prefillCap ≤ q * cfg.prefillCap := Nat.mul_le_mul_right _ hlt
      rw [show k * cfg.prefillCap + min (stop - k * cfg.prefillCap) cfg.prefillCap =
        (k + 1) * cfg.prefillCap by omega]
      exact mem_cons_of_mem _ (ih (k + 1) hlt (by omega) hlater)

theorem mem_chunks_resumed (hcap : cfg.prefillCap ≠ 0) (hstart : start ≠ 0) (fuel pos : ℕ)
    {c : ℕ × ℕ} (hc : c ∈ chunks cfg start stop fuel pos) :
    c.2 - c.1 ≤ cfg.rawCap ∧ ∃ d ∈ chunks cfg 0 stop stop 0, d.1 ≤ c.1 ∧ c.2 ≤ d.2 := by
  induction fuel generalizing pos with
  | zero => simp [chunks] at hc
  | succ fuel ih =>
    rw [chunks] at hc
    split at hc
    · rename_i hlt
      rcases mem_cons.mp hc with rfl | hrest
      · obtain ⟨hraw, hnext⟩ := chunkSize_resumed cfg stop hstart pos
        have hbound := chunkSize_le cfg start stop pos
        have hdiv := Nat.div_add_mod' pos cfg.prefillCap
        have hmod := Nat.mod_lt pos (Nat.pos_of_ne_zero hcap)
        have hcold := mem_chunks_cold hcap (by omega : pos / cfg.prefillCap * cfg.prefillCap < stop)
          stop 0 (Nat.zero_le _) (by omega)
        rw [Nat.zero_mul] at hcold
        refine ⟨by simp only; omega, _, hcold, by simp only; omega, ?_⟩
        rw [Nat.succ_mul, Nat.le_min]
        constructor <;> (simp only; omega)
      · exact ih _ hrest
    · simp at hc

theorem evaluated_prefix (o : SyncOutcomes) (fuel i pos : ℕ) :
    evaluated cfg o start stop fuel i pos <+: chunks cfg start stop fuel pos := by
  induction fuel generalizing i pos with
  | zero => exact prefix_rfl
  | succ fuel ih =>
    rw [evaluated, chunks]
    by_cases hlt : pos < stop
    · rw [if_pos hlt]
      split
      · rw [prefix_cons_inj]
        split
        · exact nil_prefix
        · exact ih _ _
      · exact nil_prefix
    · rw [if_neg (by omega), if_neg hlt]

variable {T : Target Tok Log} {o : SyncOutcomes} {prompt : List Tok}

/-- What a run records is what it reported last, and it is what the graph holds
unless a chunk failed. A run that is neither cancelled nor failed gets through
every chunk. -/
structure Recorded (prompt : List Tok) (last : ℕ) (all : Prop)
    (r : Prefilled Tok Log) : Prop where
  checkpoint : r.state.checkpoint = prompt.take last
  graph : r.ok = true → r.state.graph = some (prompt.take last)
  complete : r.ok = true → r.cancelled = false → all

theorem chunkLoop_recorded (hcap : cfg.prefillCap ≠ 0) (hraw : start = 0 ∨ cfg.rawCap ≠ 0)
    (hstop : stop ≤ prompt.length) (fuel i pos : ℕ) (s : State Tok Log) (hpos : pos ≤ stop)
    (hgraph : s.graph = some (prompt.take pos)) (hcheckpoint : s.checkpoint = prompt.take pos) :
    Recorded prompt ((reports pos (evaluated cfg o start stop fuel i pos)).getLastD 0)
      (evaluated cfg o start stop fuel i pos = chunks cfg start stop fuel pos)
      (chunkLoop T cfg o prompt start stop fuel i pos s) := by
  unfold reports
  rw [getLastD_cons]
  induction fuel generalizing i pos s with
  | zero => exact ⟨hcheckpoint, fun _ => hgraph, fun _ _ => rfl⟩
  | succ fuel ih =>
    rw [chunkLoop, evaluated, chunks]
    by_cases hlt : pos < stop
    · rw [if_pos hlt, if_pos hlt]
      have hsize := chunkSize_pos hcap hraw hlt
      have hbound := chunkSize_le cfg start stop pos
      cases hbefore : o.cancel (2 * i) with
      | true => exact ⟨by simpa using hcheckpoint, by simpa using hgraph, by simp⟩
      | false =>
        cases hstep : o.step i with
        | false => exact ⟨by simpa using hcheckpoint, by simp, by simp⟩
        | true =>
          have hnoted : 0 < pos + chunkSize cfg start stop pos ∧
              pos + chunkSize cfg start stop pos ≤ prompt.length := by omega
          have hnext := extendAt_take (Nat.le_add_right pos _) hnoted.2
          simp only [hgraph, hnext, hlt, notePrefillProgress, and_self, if_true, Bool.false_eq_true,
            if_false, hnoted]
          cases o.cancel (2 * i + 1) with
          | true => exact ⟨rfl, fun _ => rfl, by simp⟩
          | false =>
            have hrest := ih (i + 1) _ ⟨prompt.take (pos + chunkSize cfg start stop pos), true, _,
              some (T.logits (prompt.take (pos + chunkSize cfg start stop pos))), none⟩
              (by omega) rfl rfl
            simp only [Bool.false_eq_true, if_false, map_cons, getLastD_cons]
            exact ⟨hrest.checkpoint, hrest.graph, fun hok hran => by rw [hrest.complete hok hran]⟩
    · rw [if_neg hlt, if_neg (by omega), if_neg hlt]
      exact ⟨hcheckpoint, fun _ => hgraph, fun _ _ => rfl⟩

/-- The chunks of a range, and those a run over it gets through. -/
def rangeChunks (cfg : Config) (start count : ℕ) : List (ℕ × ℕ) :=
  chunks cfg start (start + count) count start

def rangeEvaluated (cfg : Config) (o : SyncOutcomes) (start count : ℕ) : List (ℕ × ℕ) :=
  evaluated cfg o start (start + count) count 0 start

/-- The chunks of a range cover it, those of a resumed range lie inside chunks of the
cold prompt, and whatever cuts a run short, it has recorded the prefix it evaluated. -/
theorem prefill_range (T : Target Tok Log) {count : ℕ} (hcap : 1 ≤ cfg.prefillCap)
    (hraw : 1 ≤ cfg.rawCap) (hlen : start + count ≤ prompt.length) :
    Covers start (start + count) (rangeChunks cfg start count) ∧
      (start ≠ 0 → ∀ c ∈ rangeChunks cfg start count, c.2 - c.1 ≤ cfg.rawCap ∧
        ∃ d ∈ rangeChunks cfg 0 (start + count), d.1 ≤ c.1 ∧ c.2 ≤ d.2) ∧
      ∀ (o : SyncOutcomes) (s : State Tok Log),
        s.graph = some (prompt.take start) → s.checkpoint = prompt.take start →
          rangeEvaluated cfg o start count <+: rangeChunks cfg start count ∧
            Recorded prompt ((reports start (rangeEvaluated cfg o start count)).getLastD 0)
              (rangeEvaluated cfg o start count = rangeChunks cfg start count)
              (chunkLoop T cfg o prompt start (start + count) count 0 start
                (notePrefillProgress prompt start s)) := by
  refine ⟨chunks_cover (by omega) (by omega) _ _ (by omega) (by omega), ?_, ?_⟩
  · intro hstart c hc
    rw [rangeChunks, Nat.zero_add]
    exact mem_chunks_resumed (by omega) hstart _ _ hc
  · intro o s hgraph hcheckpoint
    refine ⟨ evaluated_prefix _ _ _ _, chunkLoop_recorded (by omega) (by omega) hlen _ _ _ _
      (by omega) ?_ ?_⟩
    all_goals
      unfold notePrefillProgress
      split <;> simp [hgraph, hcheckpoint]

/-- A range from 3 to 9 under a cap of 4. -/
theorem prefill_range_resumed :
    Covers 3 9 (rangeChunks { graphConfig with prefillCap := 4, rawCap := 8 } 3 6) :=
  (prefill_range countTarget (by decide) (by decide)
    (by decide : 3 + 6 ≤ (List.replicate 9 0).length)).1

end Ds4Studio.Session
