import Ds4Studio.Dist.Shards
import Ds4Studio.Payload.Restore

/-!
Which shards a session accepts. The sizes that the two sides compute for the tensor rows
agree where the shard is accepted, so that a shard cut by the one formula is used up by the
other.
-/

namespace Ds4Studio.Dist

open List LittleEndian Option Payload Reader Stateful

variable {sh : Shape}

/-- The session can take the shard of a payload with this layout and these row counts. -/
structure Accepts (sh : Shape) (s : Session) (l : Layout) (nTokens layerStart layerEnd : ℕ)
    (nComp nIndexComp : List ℕ) : Prop where
  start_le : layerStart ≤ layerEnd
  end_lt : layerEnd < sh.nLayer
  ctx_le : l.ctx ≤ s.caps.ctxSize
  tokenCount_eq : l.tokenCount = nTokens
  tokenCount_lt : l.tokenCount < s.caps.ctxSize
  nLayers_eq : l.nLayers = sh.nLayer
  headDim_eq : l.headDim = sh.headDim
  indexerHeadDim_eq : l.indexerHeadDim = sh.indexerHeadDim
  rawWindow_eq : l.rawWindow = sh.rawWindow s.caps
  rawCap_ne : l.rawCap ≠ 0
  rawLive_eq : l.rawLive = min l.tokenCount l.rawWindow
  rawLive_le : l.rawLive ≤ l.rawCap
  rawLive_le_rawCap : l.rawLive ≤ sh.rawCap s.caps
  compCap_le : l.compCap ≤ sh.compCap s.caps
  nComp_le : List.Forall₂ (fun il n => n ≤ l.compCap ∧ n ≤ sh.layerCompCap s.caps il)
    (layers layerStart layerEnd) nComp
  nIndexComp_le : List.Forall₂ (fun il n => n ≤ l.compCap ∧ n ≤ sh.layerCompCap s.caps il)
    (layers layerStart layerEnd) nIndexComp

/-- The numbers of a layout fit their fields. -/
def Layout.Small (l : Layout) : Prop := ∀ n ∈ l.sessionHeader, n < 2 ^ 32

/-- What a session makes of a shard. -/
def shardOf (l : Layout) (layerStart : ℕ) (nComp nIndexComp : List ℕ) : Shard :=
  ⟨layerStart, l.tokenCount, l.rawLive, nComp, nIndexComp⟩

@[simp] theorem layers_length (layerStart layerEnd : ℕ) :
    (layers layerStart layerEnd).length = layerEnd + 1 - layerStart := by
  simp [layers]

theorem words_length (ns : List ℕ) : (words ns).length = 4 * ns.length := by
  induction ns with
  | nil => rfl
  | cons n ns ih => simp only [words, flatMap_cons, length_append, put_length,
      length_cons] at ih ⊢; omega

theorem ite_lt_eq_min (a b : ℕ) : (if a < b then a else b) = min a b := by split_ifs <;> omega

private theorem ends_checked_fits {s : Session} {l : Layout} {e : String} {il ns : List ℕ}
    {rest : Bytes} {r : ℕ} {Q : List ℕ → Input → Prop} (hlen : il.length = ns.length)
    (hlt : ∀ n ∈ ns, n < 2 ^ 32) :
    Ends (readChecked "session" e (il.map fun il n =>
        decide (n ≤ l.compCap) && decide (n ≤ sh.layerCompCap s.caps il)))
      ⟨words ns ++ rest, (words ns).length + r⟩ Q ↔
      List.Forall₂ (fun il n => n ≤ l.compCap ∧ n ≤ sh.layerCompCap s.caps il) il ns ∧
        Q ns ⟨rest, r⟩ := by
  unfold words
  rw [ends_checked (by simpa using hlen) hlt, forall₂_map_left_iff]
  simp only [Bool.and_eq_true, decide_eq_true_eq]

theorem layerHeader_small {l : Layout} (hl : l.Small) {layerStart layerEnd : ℕ}
    (hstart : layerStart < 2 ^ 32) (hend : layerEnd < 2 ^ 32) :
    ∀ n ∈ l.layerHeader layerStart layerEnd, n < 2 ^ 32 := by
  simp only [Layout.Small, Layout.sessionHeader, forall_mem_cons] at hl
  simp only [Layout.layerHeader, forall_mem_cons]
  refine ⟨by decide, by decide, ?_⟩
  obtain ⟨-, -, h2, h3, h4, h5, h6, h7, h8, h9, h10, -, h12, -⟩ := hl
  exact ⟨h2, h3, h4, h5, h6, h7, h8, h9, h10, hstart, hend, h12, by simp⟩

/-- A session takes the front of a shard exactly if it accepts the shard. -/
theorem ends_readShard {s : Session} {l : Layout} {nTokens layerStart layerEnd : ℕ}
    {nComp nIndexComp : List ℕ} {tensors : Bytes} {Q : Shard → Input → Prop} (hl : l.Small)
    (hend : layerEnd < 2 ^ 32) (hrange : layerStart ≤ layerEnd)
    (hlen : nComp.length = layerEnd + 1 - layerStart)
    (hlen' : nIndexComp.length = layerEnd + 1 - layerStart)
    (hlt : ∀ n ∈ nComp, n < 2 ^ 32) (hlt' : ∀ n ∈ nIndexComp, n < 2 ^ 32) :
    Ends (readShard sh s nTokens layerStart layerEnd)
        (Input.ofBytes (words (l.layerHeader layerStart layerEnd) ++ words nComp ++
          words nIndexComp ++ tensors)) Q ↔
      Accepts sh s l nTokens layerStart layerEnd nComp nIndexComp ∧
        Q (shardOf l layerStart nComp nIndexComp) (Input.ofBytes tensors) := by
  have hheader : Reads (readWords "session" 14) (words (l.layerHeader layerStart layerEnd))
      (l.layerHeader layerStart layerEnd) :=
    reads_words "session" (layerHeader_small hl (by omega) hend)
  have hinput : Input.ofBytes (words (l.layerHeader layerStart layerEnd) ++ words nComp ++
      words nIndexComp ++ tensors) = ⟨words (l.layerHeader layerStart layerEnd) ++
        (words nComp ++ (words nIndexComp ++ tensors)),
        (words (l.layerHeader layerStart layerEnd)).length +
          ((words nComp).length + ((words nIndexComp).length + tensors.length))⟩ := by
    simp [Input.ofBytes]
  rw [hinput]
  unfold readShard
  rw [ends_bind, ends_reject]
  rw [ends_runs_bind (hheader _ _)]
  simp only [Layout.layerHeader, getD_cons_zero, getD_cons_succ]
  rw [ends_bind, ends_reject, ends_bind, ends_reject, ends_bind, ends_reject, ends_bind,
    ends_reject, ends_bind, ends_reject, ends_bind, ends_reject, ends_bind, ends_reject,
    ends_bind, ends_checked_fits (by simp [hlen]) hlt, ends_bind,
    ends_checked_fits (by simp [hlen']) hlt', ends_iff (runs_pure _ _)]
  simp only [rangeValid, Bool.not_eq_false', Bool.and_eq_true, decide_eq_true_eq,
    Bool.or_eq_false_iff, bne_eq_false_iff_eq, beq_eq_false_iff_ne, decide_eq_false_iff_not,
    not_lt, not_le, true_and, ite_lt_eq_min]
  constructor
  · rintro ⟨⟨ha, hb⟩, ⟨⟨hctx, htok⟩, htoks⟩, ⟨⟨hn, hd⟩, hi⟩, hw, ⟨⟨⟨hc, hr⟩, hr'⟩, hr''⟩, hcomp,
      hfit, hfit', hQ⟩
    exact ⟨⟨ha, hb, hctx, htok, htoks, hn, hd, hi, hw, hc, hr, hr', hr'', hcomp, hfit, hfit'⟩, hQ⟩
  · rintro ⟨h, hQ⟩
    exact ⟨⟨h.start_le, h.end_lt⟩, ⟨⟨h.ctx_le, h.tokenCount_eq⟩, h.tokenCount_lt⟩,
      ⟨⟨h.nLayers_eq, h.headDim_eq⟩, h.indexerHeadDim_eq⟩, h.rawWindow_eq,
      ⟨⟨⟨h.rawCap_ne, h.rawLive_eq⟩, h.rawLive_le⟩, h.rawLive_le_rawCap⟩, h.compCap_le,
      h.nComp_le, h.nIndexComp_le, hQ⟩

theorem validate_ok {nLayers : ℕ} {route : Route} (h : route.validate nLayers = .ok ()) :
    route.localStart = 0 ∧ route.localEnd < nLayers ∧
      Route.follow nLayers (route.localEnd + 1) route.entry = some nLayers := by
  unfold Route.validate at h
  split_ifs at h with hlocal
  split at h
  · cases h
  · next next hfollow =>
    split_ifs at h with hnext
    exact ⟨by tauto, by omega, by rw [hfollow]; simpa using hnext⟩

section Sizes

/-- A number of bytes, where it fits 64 bits. -/
def checked (n : ℕ) : Option ℕ := if n < 2 ^ 64 then some n else none

theorem checked_bind {n : ℕ} {f : ℕ → ℕ} (h : n ≤ f n) :
    ((checked n).bind fun m => checked (f m)) = checked (f n) := by
  unfold checked
  by_cases hn : n < 2 ^ 64
  · rw [if_pos hn, bind_some]
  · rw [if_neg hn, if_neg (by omega)]
    rfl

variable (a b : ℕ)

theorem checked_add (g : ℕ → Option ℕ) :
    ((checked a).bind fun x => (checked b).bind fun y => (checked (x + y)).bind g) =
      (checked (a + b)).bind g := by
  unfold checked
  by_cases ha : a < 2 ^ 64
  · by_cases hb : b < 2 ^ 64
    · rw [if_pos ha, bind_some, if_pos hb, bind_some]
    · rw [if_pos ha, if_neg hb, if_neg (by omega)]
      rfl
  · rw [if_neg ha, if_neg (show ¬ a + b < 2 ^ 64 by omega)]
    rfl

theorem checked_add_last :
    ((checked a).bind fun x => (checked b).bind fun y => checked (x + y)) = checked (a + b) := by
  simpa using checked_add a b some

theorem checked_add_add (g : ℕ → Option ℕ) :
    ((checked a).bind fun x => (checked b).bind fun y => (checked (x + y)).bind fun z =>
      (checked (z + y)).bind g) = (checked (a + b + b)).bind g := by
  unfold checked
  by_cases ha : a < 2 ^ 64
  · by_cases hb : b < 2 ^ 64
    · rw [if_pos ha, bind_some, if_pos hb, bind_some]
      by_cases hab : a + b < 2 ^ 64
      · rw [if_pos hab, bind_some]
      · rw [if_neg hab, if_neg (by omega)]
        rfl
    · rw [if_pos ha, if_neg hb, if_neg (by omega)]
      rfl
  · rw [if_neg ha, if_neg (show ¬ a + b + b < 2 ^ 64 by omega)]
    rfl

theorem checked_add_add_last :
    ((checked a).bind fun x => (checked b).bind fun y => (checked (x + y)).bind fun z =>
      checked (z + y)) = checked (a + b + b) := by
  simpa using checked_add_add a b some

theorem u64Mul_eq : u64Mul a b = checked (a * b) := rfl

theorem u64Add_eq : u64Add a b = checked (a + b) := rfl

theorem kvRowBytes_eq (n dim : ℕ) : kvRowBytes n dim = checked (n * dim * 4) :=
  checked_bind (f := fun m => m * 4) (by omega)

theorem kvStateBytes_eq {ratio : ℕ} (dim : ℕ) (h : ratio ≠ 0) :
    kvStateBytes ratio dim = checked (Shape.stateBytes dim ratio) := by
  have hcoff : 0 < if ratio = 4 then 2 else 1 := by split_ifs <;> omega
  unfold kvStateBytes Shape.stateBytes
  simp only [u64Mul_eq, bind_eq_bind]
  generalize (if ratio = 4 then 2 else 1) = coff at hcoff
  have h1 (n : ℕ) : ((checked (n * ratio)).bind fun m => checked (m * 4)) =
      checked (n * ratio * 4) := checked_bind (f := fun m => m * 4) (by omega)
  have h2 (n : ℕ) : ((checked (n * coff)).bind fun m => checked (m * ratio * 4)) =
      checked (n * coff * ratio * 4) := by
    refine checked_bind (f := fun m => m * ratio * 4) ?_
    have := Nat.le_mul_of_pos_right (n * coff) (Nat.pos_of_ne_zero h)
    omega
  simp only [h1, h2]
  refine checked_bind (f := fun m => m * coff * ratio * 4) ?_
  calc coff * dim ≤ coff * dim * coff := Nat.le_mul_of_pos_right _ hcoff
    _ ≤ coff * dim * coff * ratio := Nat.le_mul_of_pos_right _ (Nat.pos_of_ne_zero h)
    _ ≤ coff * dim * coff * ratio * 4 := by omega

theorem kvLayerTensorBytes_eq {l : Layout} (hd : l.headDim = sh.headDim)
    (hi : l.indexerHeadDim = sh.indexerHeadDim) (il n m : ℕ) :
    kvLayerTensorBytes sh l il n m = checked (layerTensorBytes sh l.rawLive il n m) := by
  unfold kvLayerTensorBytes layerTensorBytes
  simp only [kvRowBytes_eq, u64Add_eq, hd, hi, bind_eq_bind, Option.pure_def]
  by_cases h0 : sh.compressRatio il = 0
  · simp only [if_pos h0]
    unfold checked
    split_ifs <;> rfl
  · simp only [if_neg h0, kvStateBytes_eq _ h0]
    by_cases h4 : sh.compressRatio il = 4
    · simp only [h4, ne_eq, not_true_eq_false, if_false, if_true]
      rw [checked_add, checked_add_add, checked_add, checked_add_add_last]
    · have hsome (a : ℕ) : (checked a).bind some = checked a := by simp
      simp only [h4, ne_eq, not_false_eq_true, if_true, if_false, hsome]
      rw [checked_add, checked_add_add_last]

/-- The bytes of some layers' rows, where each layer's number of bytes fits 64 bits. -/
def sliceBytes (sh : Shape) (l : Layout) : List ℕ → List ℕ → List ℕ → Option ℕ
  | il :: ils, n :: ns, m :: ms =>
    (kvLayerTensorBytes sh l il n m).bind fun a => (sliceBytes sh l ils ns ms).map fun b => a + b
  | _, _, _ => some 0

/-- The layers of a slice are copied exactly where the file holds all their bytes. -/
theorem ends_copyLayers {l : Layout} {ils ns ms : List ℕ} {i : Input} {Q : Bytes → Input → Prop} :
    Ends (copyLayers sh l ils ns ms) i Q ↔ ∃ n, sliceBytes sh l ils ns ms = some n ∧
      n ≤ i.remaining ∧ n ≤ i.stream.length ∧
      Q (i.stream.take n) ⟨i.stream.drop n, i.remaining - n⟩ := by
  fun_induction copyLayers sh l ils ns ms generalizing i Q with
  | case1 il ils n ns m ms h =>
    have hfails : Fails (throw "distributed KV layer byte count overflow" : Reader Bytes) i :=
      ⟨_, _, rfl⟩
    simp only [sliceBytes, h, bind_none, reduceCtorEq, false_and, exists_false, iff_false]
    exact not_ends hfails
  | case2 il ils n ns m ms a h ih =>
    simp only [sliceBytes, h, bind_some, map_eq_some_iff]
    rw [ends_bind]
    constructor
    · rintro ⟨b, j, hread, hrest⟩
      obtain ⟨hr, hs, rfl, rfl⟩ := readBytes_runs_iff.mp hread
      obtain ⟨k, hk, hkr, hks, hQ⟩ := ih.mp (ends_bind.mp hrest)
      rw [ends_iff (runs_pure _ _), drop_drop, Nat.sub_sub] at hQ
      dsimp only at hkr
      rw [length_drop] at hks
      have htake : i.stream.take (a + k) = i.stream.take a ++ (i.stream.drop a).take k := take_add
      exact ⟨a + k, ⟨k, hk, rfl⟩, by omega, by omega, htake ▸ hQ⟩
    · rintro ⟨_, ⟨k, hk, rfl⟩, hr, hs, hQ⟩
      refine ⟨_, _, readBytes_run (by omega) (by omega), ends_bind.mpr (ih.mpr ?_)⟩
      refine ⟨k, hk, by dsimp only; omega, by rw [length_drop]; omega, ?_⟩
      rw [ends_iff (runs_pure _ _), drop_drop, Nat.sub_sub]
      have htake : i.stream.take (a + k) = i.stream.take a ++ (i.stream.drop a).take k := take_add
      exact htake ▸ hQ
  | case3 ils ns ms h =>
    rw [ends_iff (runs_pure _ _)]
    have h0 : sliceBytes sh l ils ns ms = some 0 := by
      unfold sliceBytes
      split
      · exact absurd rfl (h _ _ _ _ _ _ rfl rfl)
      · rfl
    simp [h0]

variable {l : Layout}

/-- The copied bytes of an accepted shard are the rows that the session restores. -/
theorem sliceBytes_eq (hd : l.headDim = sh.headDim) (hi : l.indexerHeadDim = sh.indexerHeadDim)
    (rawCap : ℕ) {ils ns ms : List ℕ} {n : ℕ} (h : sliceBytes sh l ils ns ms = some n) :
    n = sizeOf sh (rowSlots sh rawCap l.tokenCount l.rawLive ils ns ms) := by
  fun_induction sliceBytes sh l ils ns ms generalizing n with
  | case1 il ils a ns m ms ih =>
    rw [kvLayerTensorBytes_eq hd hi, checked] at h
    split_ifs at h
    · obtain ⟨k, hk, rfl⟩ := map_eq_some_iff.mp h
      rw [rowSlots, sizeOf_append, sizeOf_spans, ← ih hk]
    · cases h
  | case2 ils ns ms hnot =>
    obtain rfl := some.inj h
    unfold rowSlots
    split
    · exact absurd rfl (hnot _ _ _ _ _ _ rfl rfl)
    · rfl

end Sizes

section Accepted

variable {l : Layout} {s : Session}

/-- Rows within the row counts of an accepted shard stand inside their tensors. -/
theorem rowSlots_lt {tokens rawLive : ℕ} {ils ns ms : List ℕ}
    (hn : List.Forall₂ (fun il n => n ≤ l.compCap ∧ n ≤ sh.layerCompCap s.caps il) ils ns)
    (hm : List.Forall₂ (fun il n => n ≤ l.compCap ∧ n ≤ sh.layerCompCap s.caps il) ils ms)
    {slot : Slot} (h : slot ∈ rowSlots sh (sh.rawCap s.caps) tokens rawLive ils ns ms) :
    slot.2.2 < sh.rowCount s.caps slot.1 slot.2.1 := by
  induction hn generalizing ms with
  | nil => cases hm; cases h
  | cons hn _ ih =>
    cases hm with
    | cons hm hms =>
      rcases mem_append.mp h with h | h
      · obtain ⟨span, hspan, rfl⟩ := mem_map.mp h
        exact Shape.spans_lt hn.2 hm.2 hspan
      · exact ih hms h

theorem shardOf_slots {rawCap layerStart layerEnd : ℕ} {nComp nIndexComp : List ℕ}
    (h : nComp.length = layerEnd + 1 - layerStart) :
    (shardOf l layerStart nComp nIndexComp).slots sh rawCap = rowSlots sh rawCap l.tokenCount
      l.rawLive (layers layerStart layerEnd) nComp nIndexComp := by
  simp [Shard.slots, shardOf, layers, h]

/-- A session restores a shard exactly if it accepts it, its rows are complete and the
accelerator works. -/
theorem ends_restoreShard {tokens : List ℕ} {layerStart layerEnd : ℕ}
    {nComp nIndexComp : List ℕ} {tensors : Bytes} {faults : List Bool} {Q : Session → Prop}
    (hl : l.Small) (hend : layerEnd < 2 ^ 32) (hrange : layerStart ≤ layerEnd)
    (hlen : nComp.length = layerEnd + 1 - layerStart)
    (hlen' : nIndexComp.length = layerEnd + 1 - layerStart)
    (hlt : ∀ n ∈ nComp, n < 2 ^ 32) (hlt' : ∀ n ∈ nIndexComp, n < 2 ^ 32) :
    Ends (Restore.layerPayload sh tokens layerStart layerEnd)
        ⟨Input.ofBytes (words (l.layerHeader layerStart layerEnd) ++ words nComp ++
          words nIndexComp ++ tensors), s, faults⟩ (fun _ st => Q st.session) ↔
      Accepts sh s l tokens.length layerStart layerEnd nComp nIndexComp ∧
        sizeOf sh ((shardOf l layerStart nComp nIndexComp).slots sh (sh.rawCap s.caps)) =
          tensors.length ∧
        Restore.Steady
          (((shardOf l layerStart nComp nIndexComp).slots sh (sh.rawCap s.caps)).length + 2)
          faults ∧
        Q (Restore.restored sh tokens (shardOf l layerStart nComp nIndexComp) tensors s) := by
  rw [Restore.ends_layerPayload, ends_readShard hl hend hrange hlen hlen' hlt hlt']
  refine and_congr_right fun h => ?_
  have hfit : ∀ slot ∈ (shardOf l layerStart nComp nIndexComp).slots sh (sh.rawCap s.caps),
      slot.2.2 < sh.rowCount s.caps slot.1 slot.2.1 := by
    rw [shardOf_slots hlen]
    exact fun slot hslot => rowSlots_lt h.nComp_le h.nIndexComp_le hslot
  constructor
  · rintro ⟨-, hsize, -, hsteady, hQ⟩
    exact ⟨hsize, hsteady, hQ⟩
  · rintro ⟨hsize, hsteady, hQ⟩
    exact ⟨hfit, hsize, le_rfl, hsteady, hQ⟩

end Accepted

end Ds4Studio.Dist
