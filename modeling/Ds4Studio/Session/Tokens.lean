import Ds4Studio.Session.Sync

/-!
The tokens of a session through a sync, whatever the backend and the caller do: a sync that
goes through leaves the prompt, any other leaves a front part of it or what was there.
-/

namespace Ds4Studio.Session

open List

variable {Tok Log : Type*} {s : State Tok Log}

theorem notePrefillProgress_front {prompt : List Tok} (h : s.checkpoint <+: prompt) (current : ℕ) :
    (notePrefillProgress prompt current s).checkpoint <+: prompt := by
  unfold notePrefillProgress
  split
  · exact take_prefix current prompt
  · exact h

variable (T : Target Tok Log) (cfg : Config) (o : SyncOutcomes) (prompt : List Tok)

theorem chunkLoop_front (start stop fuel i pos : ℕ) (h : s.checkpoint <+: prompt) :
    (chunkLoop T cfg o prompt start stop fuel i pos s).state.checkpoint <+: prompt := by
  induction fuel generalizing i pos s with
  | zero => exact h
  | succ fuel ih =>
    rw [chunkLoop]
    split
    · split
      · exact h
      · split
        · simp only
          split
          · exact notePrefillProgress_front (by exact h) _
          · exact ih _ _ (notePrefillProgress_front (by exact h) _)
        · exact h
    · exact h

theorem streamLoop_front (progress : Bool) (prompt : List Tok) (stop i pos : ℕ) (rest : List Tok)
    (h : s.checkpoint <+: prompt) :
    (streamLoop T o progress prompt stop i pos rest s).state.checkpoint <+: prompt := by
  induction rest generalizing i pos s with
  | nil => exact h
  | cons t rest ih =>
    have hnoted : ∀ graph : Option (List Tok),
        (if pos + 1 = stop then
          if progress then
            notePrefillProgress prompt stop { s with graph := graph, logits := graph.map T.logits }
          else { s with graph := graph, logits := graph.map T.logits }
        else { s with graph := graph }).checkpoint <+: prompt := by
      intro graph
      split
      · split
        · exact notePrefillProgress_front (by exact h) _
        · exact h
      · exact h
    rw [streamLoop]
    split
    · exact h
    · split
      · simp only
        split
        · exact hnoted _
        · exact ih _ _ (hnoted _)
      · exact h

theorem prefillChunkedRange_front (start : ℕ) (h : s.checkpoint <+: prompt) :
    (prefillChunkedRange T cfg o prompt start s).state.checkpoint <+: prompt := by
  unfold prefillChunkedRange
  simp only
  split
  · exact h
  · split
    · exact streamLoop_front T o true prompt _ _ _ _ (notePrefillProgress_front h start)
    · split
      · exact h
      · exact chunkLoop_front T cfg o prompt _ _ _ _ _ (notePrefillProgress_front h start)

theorem prefillRawSwa_front (h : s.checkpoint <+: prompt) :
    (prefillRawSwa T cfg o prompt s).state.checkpoint <+: prompt := by
  unfold prefillRawSwa
  split
  · exact h
  · split
    · exact streamLoop_front T o false prompt _ _ _ _ h
    · split
      · exact h
      · exact h

theorem extendLoop_front (i : ℕ) (rest : List Tok) (s : State Tok Log) :
    (extendLoop T cfg o i rest s).2.checkpoint <+: s.checkpoint ++ rest ∧
      ((extendLoop T cfg o i rest s).1 = .ok →
        (extendLoop T cfg o i rest s).2.checkpoint = s.checkpoint ++ rest ∧
          (extendLoop T cfg o i rest s).2.checkpointValid = s.checkpointValid) := by
  induction rest generalizing i s with
  | nil => simp [extendLoop]
  | cons t rest ih =>
    rw [extendLoop]
    split
    · exact ⟨prefix_append _ _, by simp⟩
    · split
      · simpa using ih (i + 1) { s with
          checkpoint := s.checkpoint ++ [t]
          graph := decodeAt s.graph s.checkpoint.length t
          logits := (decodeAt s.graph s.checkpoint.length t).map T.logits }
      · exact ⟨prefix_append _ _, by simp⟩

/-- What a sync leaves of its prompt. -/
structure Leaves (prompt : List Tok) (s : State Tok Log) (r : SyncResult × State Tok Log) : Prop where
  front : r.2.checkpoint <+: prompt ∨ r.2.checkpoint = s.checkpoint
  ok : r.1 = .ok → r.2.checkpoint = prompt ∧ r.2.checkpointValid = true

theorem resumeSync_leaves {prompt : List Tok} (hvalid : s.checkpointValid = true)
    (hfront : s.checkpoint <+: prompt) : Leaves prompt s (resumeSync T cfg o prompt s) := by
  unfold resumeSync
  simp only
  split
  · have hprefill := prefillChunkedRange_front T cfg o prompt s.checkpoint.length
      (s := { s with mtpDraft := none }) hfront
    split
    · exact ⟨.inl hprefill, by simp⟩
    · split
      · exact ⟨.inl prefix_rfl, fun _ => ⟨rfl, rfl⟩⟩
      · exact ⟨.inl hprefill, by simp⟩
  · obtain ⟨rest, rfl⟩ := hfront
    have hloop := extendLoop_front T cfg o 0 rest { s with mtpDraft := none }
    rw [drop_left]
    exact ⟨.inl hloop.1, fun hok => ⟨(hloop.2 hok).1, (hloop.2 hok).2.trans hvalid⟩⟩

theorem coldSync_leaves (s : State Tok Log) : Leaves prompt s (coldSync T cfg o prompt s) := by
  have hnil : ([] : List Tok) <+: prompt := nil_prefix
  unfold coldSync
  split
  · exact ⟨.inl prefix_rfl, fun _ => ⟨rfl, rfl⟩⟩
  · simp only
    split
    · split
      · split
        · exact ⟨.inl (prefillChunkedRange_front T cfg o prompt 0 hnil), by simp⟩
        · split
          · exact ⟨.inl prefix_rfl, fun _ => ⟨rfl, rfl⟩⟩
          · exact ⟨.inl (prefillChunkedRange_front T cfg o prompt 0 hnil), by simp⟩
      · split
        · exact ⟨.inl (prefillRawSwa_front T cfg o prompt hnil), by simp⟩
        · split
          · exact ⟨.inl prefix_rfl, fun _ => ⟨rfl, rfl⟩⟩
          · exact ⟨.inl (prefillRawSwa_front T cfg o prompt hnil), by simp⟩
    · exact ⟨.inl hnil, by simp⟩

theorem sessionSync_leaves [DecidableEq Tok] (T : Target Tok Log) (cfg : Config) (o : SyncOutcomes)
    (prompt : List Tok) (s : State Tok Log) : Leaves prompt s (sessionSync T cfg o prompt s) := by
  unfold sessionSync
  split
  · exact ⟨.inr rfl, by simp⟩
  · split
    · exact ⟨.inr rfl, by simp⟩
    · split
      · rename_i hresume
        exact resumeSync_leaves T cfg o hresume.1 hresume.2
      · exact coldSync_leaves T cfg o prompt s

end Ds4Studio.Session
