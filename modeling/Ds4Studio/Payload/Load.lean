import Ds4Studio.Payload.Restore

/-!
Loading the payload of a whole session. The logits are read into the session itself, in front of
the row counts and of the point from which the checkpoint no longer holds; on the processor the
row counts of all layers are held against the capacity of one of them.
-/

namespace Ds4Studio.Payload

open List LittleEndian Reader Restore Stateful

/-- Where the tensors of the session live. -/
inductive Backend
  | cpu
  | graph
  deriving DecidableEq

namespace Backend

variable (sh : Shape) (c : Caps)

/-- `session_cpu_comp_cap` -/
def cpuCompCap : ℕ :=
  let layers := range sh.nLayer
  (((layers.find? fun il => sh.compressRatio il = 4).or
    (layers.find? fun il => sh.compressRatio il ≠ 0)).map (sh.layerCompCap c)).getD c.ctxSize

def rawCap : Backend → ℕ
  | .cpu => sh.rawWindow c
  | .graph => sh.rawCap c

def compCap : Backend → ℕ
  | .cpu => cpuCompCap sh c
  | .graph => sh.compCap c

/-- What the row counts of a layer are held against. -/
def countCap : Backend → ℕ → ℕ
  | .cpu, _ => cpuCompCap sh c
  | .graph, il => sh.layerCompCap c il

/-- How many rows a tensor of a layer is allocated for. -/
def rowCount (b : Backend) (il : ℕ) : Tensor → ℕ
  | .rawCache => b.rawCap sh c
  | t => sh.rowCount c il t

end Backend

/-- What the front of a payload says, up to the tokens. -/
structure LoadFront where
  tokens : List ℕ
  rawLive : ℕ
  compCap : ℕ

/-- The header and the tokens. -/
def readSessionFront (sh : Shape) (b : Backend) (c : Caps) : Reader LoadFront := do
  let h ← readWords "session" 13
  reject (h.getD 0 0 != sessionMagic || h.getD 1 0 != sessionVersion)
    "unsupported session payload version"
  reject (c.ctxSize < h.getD 2 0 || c.ctxSize ≤ h.getD 7 0)
    "KV checkpoint does not fit current context"
  reject (h.getD 8 0 != sh.nLayer || h.getD 9 0 != sh.headDim || h.getD 10 0 != sh.indexerHeadDim ||
      h.getD 11 0 != sh.nVocab)
    "KV checkpoint was written for a different DS4 layout"
  reject (h.getD 5 0 != sh.rawWindow c)
    "KV checkpoint graph chunk layout does not match current runtime"
  let expected := if h.getD 7 0 < h.getD 5 0 then h.getD 7 0 else h.getD 5 0
  reject (h.getD 4 0 == 0 || h.getD 12 0 != expected || h.getD 4 0 < h.getD 12 0 ||
      b.rawCap sh c < h.getD 12 0)
    "KV checkpoint raw ring layout does not match current context"
  reject (b.compCap sh c < h.getD 6 0)
    "KV checkpoint compressed cache is larger than current context"
  let tokens ← readWords "session" (h.getD 7 0)
  return ⟨tokens, h.getD 12 0, h.getD 6 0⟩

/-- The row counts. -/
def readCounts (sh : Shape) (b : Backend) (c : Caps) (f : LoadFront) : Reader Shard := do
  let fits := (range sh.nLayer).map fun il n =>
    decide (n ≤ f.compCap) && decide (n ≤ b.countCap sh c il)
  let nComp ← readChecked "session" "KV checkpoint has invalid compressed row count" fits
  let nIndexComp ← readChecked "session" "KV checkpoint has invalid indexer row count" fits
  return ⟨0, f.tokens.length, f.rawLive, nComp, nIndexComp⟩

def logitBytes (sh : Shape) : ℕ := sh.nVocab * 4

/-- The logits with the bytes that the file still has in their front. -/
def overwritten (sh : Shape) (i : Input) (s : Session) : Bytes :=
  i.stream.take (logitBytes sh) ++ s.logits.drop (i.stream.take (logitBytes sh)).length

/-- The file behind the logits. -/
def behindLogits (sh : Shape) (i : Input) : Input :=
  ⟨i.stream.drop (logitBytes sh), i.remaining - logitBytes sh⟩

/-- `payload_read_bytes` into the logits of the session. -/
def readLogits (sh : Shape) : Restore Unit := do
  let st ← get
  reject (st.input.remaining < logitBytes sh) "truncated session payload"
  modify fun st =>
    { st with session := { st.session with logits := overwritten sh st.input st.session } }
  reject (st.input.stream.length < logitBytes sh) "failed to read session payload"
  modify fun st => { st with input := behindLogits sh st.input }

def Layer.setRow (l : Layer) (span : Tensor × ℕ) (row : Bytes) : Layer :=
  { l with rows := Function.update l.rows span row }

/-- `payload_read_bytes` of one row into a tensor of the processor, which has no bound. -/
def cpuRow (sh : Shape) (slot : Slot) : Restore Unit := do
  let b ← read (readBytes "session" (slotBytes sh slot))
  modify fun st => { st with session := { st.session with
    layer := Function.update st.session.layer slot.1
      ((st.session.layer slot.1).setRow slot.2 b) } }

def invalidateCpu (s : Session) : Session :=
  { s with checkpointValid := false, mtpDraftValid := false }

/-- `session_cpu_reset_cache`: zeros, and `DS4_NEG_INF` in the scores. -/
def resetCache (sh : Shape) (s : Session) : Session :=
  { s with layer := fun il => ⟨fun span =>
      if span.1 = .attnStateScore ∨ span.1 = .indexStateScore then
        (replicate (sh.rowBytes il span.1 / 4) (put 4 0xf149f2ca)).flatten
      else replicate (sh.rowBytes il span.1) 0, 0, 0⟩ }

/-- The slots of all rows, in the order of the file; on the processor the raw rows stand from the
first one on. -/
def Backend.slots (sh : Shape) (c : Caps) (p : Shard) : Backend → List Slot
  | .cpu => rowSlots sh (sh.rawWindow c) p.rawLive p.rawLive (range sh.nLayer) p.nComp
      p.nIndexComp
  | .graph => p.slots sh (sh.rawCap c)

/-- The rows of the processor's cache all stand. -/
def commitCpu (sh : Shape) (tokens : List ℕ) (p : Shard) (s : Session) : Session :=
  { s with
    checkpoint := tokens
    layer := fun il =>
      if sh.compressRatio il = 0 then s.layer il
      else { s.layer il with nComp := p.nComp.getD il 0, nIndexComp := p.nIndexComp.getD il 0 }
    checkpointValid := true
    mtpDraftValid := false }

/-- `ds4_gpu_synchronize`, which the processor does not need. -/
def synchronize (b : Backend) (e : String) : Restore Unit :=
  if b = .graph then operate e else pure ()

/-- The checkpoint no longer holds; the processor's cache is cleared. -/
def Backend.begin (sh : Shape) (s : Session) : Backend → Session
  | .cpu => resetCache sh (invalidateCpu s)
  | .graph => invalidate s

def Backend.row (sh : Shape) : Backend → Slot → Restore Unit
  | .cpu => cpuRow sh
  | .graph => Restore.row sh

def Backend.commit (sh : Shape) (tokens : List ℕ) (p : Shard) (s : Session) : Backend → Session
  | .cpu => commitCpu sh tokens p s
  | .graph => Restore.commit tokens p s

/-- `ds4_session_load_payload` behind the row counts. -/
def finish (sh : Shape) (b : Backend) (c : Caps) (f : LoadFront) (p : Shard) : Restore Unit := do
  synchronize b "failed to synchronize accelerator before KV restore"
  modify fun st => { st with session := b.begin sh st.session }
  (b.slots sh c p).forM (b.row sh)
  let st ← get
  reject (st.input.remaining != 0) "KV checkpoint has trailing payload bytes"
  synchronize b "failed to synchronize accelerator after KV restore"
  modify fun st => { st with session := b.commit sh f.tokens p st.session }

/-- `ds4_session_load_payload`, with the slots that it writes. -/
def loadPayload (sh : Shape) (b : Backend) : Restore (List Slot) := do
  let st ← get
  let f ← read (readSessionFront sh b st.session.caps)
  readLogits sh
  let p ← read (readCounts sh b st.session.caps f)
  finish sh b st.session.caps f p
  return b.slots sh st.session.caps p

/-! ### What a load leaves -/

/-- The checkpoint, the logits and the caches are the same. -/
def Session.Same (s s' : Session) : Prop :=
  s'.checkpoint = s.checkpoint ∧ s'.logits = s.logits ∧ s'.layer = s.layer

/-- A load that fails leaves no valid checkpoint or the session as it was, and one that succeeds
has written nothing outside of its tensors. -/
def Usable (sh : Shape) (b : Backend) (st : Restoring) : Prop :=
  Leaves (loadPayload sh b) st (fun st' =>
    st'.session.checkpointValid = false ∨ st.session.Same st'.session) ∧
    ∀ slots st', Runs (loadPayload sh b) st slots st' →
      ∀ slot ∈ slots, slot.2.2 < b.rowCount sh st.session.caps slot.1 slot.2.1

variable {sh : Shape} {b : Backend} {c : Caps} {f : LoadFront} {p : Shard} {st : Restoring}

section Failure

variable {P : Session → Prop}

theorem leaves_read {α : Type} {m : Reader α} :
    Leaves (read m) st (fun st' => P st'.session) ↔ (Fails m st.input → P st.session) := by
  have hafter : (after (read m) st).session = st.session := keeps_read m st
  have hfails : Fails (read m) st ↔ Fails m st.input := zoom_fails
  unfold Leaves
  simp only [hfails, hafter]

variable {st' : Restoring}

theorem read_runs_iff {α : Type} {m : Reader α} {a : α} :
    Runs (read m) st a st' ↔ ∃ i, Runs m st.input a i ∧ st' = { st with input := i } := by
  constructor
  · intro h
    obtain ⟨a', i, hrun, rfl, rfl⟩ := ends_zoom.mp (⟨a, st', h, rfl, rfl⟩ :
      Ends (read m) st fun a' t => a' = a ∧ t = st')
    exact ⟨i, hrun, rfl⟩
  · rintro ⟨i, hrun, rfl⟩
    exact zoom_runs hrun

theorem keeps_row_backend (slot : Slot) : Keeps SameValid (b.row sh slot) := by
  cases b with
  | graph => exact keeps_row slot
  | cpu =>
    refine Keeps.bind SameValid.trans ((keeps_read _).mono fun _ _ => .of_session) fun _ => ?_
    exact fun _ => rfl

theorem leaves_synchronize {e : String} :
    Leaves (synchronize b e) st (fun st' => P st'.session) ↔
      (b = .graph → st.faults.headD false = true → P st.session) := by
  cases b with
  | cpu => exact iff_of_true (leaves_of_runs (runs_pure _ _)) nofun
  | graph =>
    have hset : Runs (set { st with faults := st.faults.tail } : Restore PUnit) st ⟨⟩
        { st with faults := st.faults.tail } := rfl
    unfold synchronize operate
    rw [if_pos rfl, leaves_runs_bind (runs_get st), leaves_runs_bind hset, leaves_reject,
      imp_iff_right rfl]

theorem keeps_synchronize (e : String) :
    Keeps (fun st st' : Restoring => st'.session = st.session) (synchronize b e) := by
  cases b with
  | cpu => exact fun _ => rfl
  | graph => exact keeps_operate e

/-- The state behind the logits. -/
def logitsDone (sh : Shape) (st : Restoring) : Restoring where
  input := behindLogits sh st.input
  session := { st.session with logits := overwritten sh st.input st.session }
  faults := st.faults

/-- The logits that are read from a file that may be too short for them. -/
theorem readLogits_eq (sh : Shape) (st : Restoring) : readLogits sh st =
    if st.input.remaining < logitBytes sh then .error "truncated session payload" st
    else if st.input.stream.length < logitBytes sh then
      .error "failed to read session payload" { logitsDone sh st with input := st.input }
    else .ok () (logitsDone sh st) := by
  unfold readLogits
  rw [bind_run (runs_get st)]
  by_cases hremaining : st.input.remaining < logitBytes sh
  · rw [if_pos hremaining]
    simp only [reject, hremaining, decide_true, if_true]
    rfl
  · rw [if_neg hremaining, bind_run (runs_reject (by simpa using hremaining) st),
      bind_run (runs_modify _ st)]
    by_cases hstream : st.input.stream.length < logitBytes sh
    · rw [if_pos hstream]
      simp only [reject, hstream, decide_true, if_true]
      rfl
    · rw [if_neg hstream, bind_run (runs_reject (by simpa using hstream) _)]
      rfl

theorem leaves_readLogits (st : Restoring) (hsame : P st.session) :
    Leaves (readLogits sh) st (fun st' => P st'.session) ↔
      (logitBytes sh ≤ st.input.remaining → st.input.stream.length < logitBytes sh →
        P (logitsDone sh st).session) := by
  rw [leaves_iff, readLogits_eq]
  split
  case isTrue h =>
    refine iff_of_true (fun e st' he => ?_) fun hle => absurd hle (Nat.not_le.mpr h)
    cases he
    exact hsame
  case isFalse h =>
    rw [imp_iff_right (Nat.not_lt.mp h)]
    split
    case isTrue hshort =>
      rw [imp_iff_right hshort]
      refine ⟨fun hall => hall _ { logitsDone sh st with input := st.input } rfl, ?_⟩
      intro hdone e st' he
      cases he
      exact hdone
    case isFalse hshort => exact iff_of_true nofun fun hbad => absurd hbad hshort

theorem readLogits_runs_iff {u : Unit} :
    Runs (readLogits sh) st u st' ↔ logitBytes sh ≤ st.input.remaining ∧
      logitBytes sh ≤ st.input.stream.length ∧ st' = logitsDone sh st := by
  unfold Runs
  rw [readLogits_eq]
  split <;> [skip; split] <;> simp_all [eq_comm]

variable (hvalid : ∀ s : Session, s.checkpointValid = false → P s)

include hvalid

/-- Behind the row counts only a synchronization that fails leaves the checkpoint valid. -/
theorem leaves_finish :
    Leaves (finish sh b c f p) st (fun st' => P st'.session) ↔
      (b = .graph → st.faults.headD false = true → P st.session) := by
  unfold finish
  rw [leaves_bind, leaves_synchronize, and_iff_left_iff_imp]
  intro _ _ st₁ _
  rw [leaves_runs_bind (runs_modify _ st₁), leaves_bind]
  have hbegin : (b.begin sh st₁.session).checkpointValid = false := by cases b <;> rfl
  have hrows : Keeps SameValid ((b.slots sh c p).forM (b.row sh)) :=
    keeps_forM SameValid.refl SameValid.trans _ fun slot _ => keeps_row_backend slot
  refine ⟨hrows.leaves fun st₂ h => hvalid _ (Eq.trans h hbegin), fun _ st₂ hrun => ?_⟩
  have hinvalid : st₂.session.checkpointValid = false := Eq.trans (hrows.runs hrun) hbegin
  rw [leaves_runs_bind (runs_get st₂), leaves_bind, leaves_reject]
  refine ⟨fun _ => hvalid _ hinvalid, fun _ st₃ hreject => ?_⟩
  obtain rfl : st₂ = st₃ := (keeps_reject (R := Eq) (fun _ => rfl) _ _).runs hreject
  rw [leaves_bind]
  refine ⟨(keeps_synchronize _).leaves fun st₃ h => hvalid _ (h ▸ hinvalid), fun _ st₃ _ => ?_⟩
  exact leaves_of_runs (runs_modify _ st₃)

/-- A load that fails leaves the session as it was, or with other logits, or not valid. -/
theorem leaves_loadPayload (hsame : P st.session) :
    Leaves (loadPayload sh b) st (fun st' => P st'.session) ↔
      ∀ f i, Runs (readSessionFront sh b st.session.caps) st.input f i →
        logitBytes sh ≤ i.remaining →
          P { st.session with logits := overwritten sh i st.session } ∨
            logitBytes sh ≤ i.stream.length ∧
              Ends (readCounts sh b st.session.caps f) (behindLogits sh i) (fun _ _ => True) ∧
              (b = .graph → st.faults.headD false = false) := by
  unfold loadPayload
  rw [leaves_runs_bind (runs_get st), leaves_bind, and_iff_right (leaves_read.mpr fun _ => hsame)]
  refine forall_congr' fun f => ⟨fun h i hfront hremaining => ?_, fun h st₁ hrun => ?_⟩
  · have hrest := leaves_bind.mp (h _ (read_runs_iff.mpr ⟨i, hfront, rfl⟩))
    rcases Nat.lt_or_ge i.stream.length (logitBytes sh) with hstream | hstream
    · exact .inl ((leaves_readLogits { st with input := i } hsame).mp hrest.1 hremaining hstream)
    · have hcounts := leaves_bind.mp
        (hrest.2 () _ (readLogits_runs_iff.mpr ⟨hremaining, hstream, rfl⟩))
      by_cases hP : P { st.session with logits := overwritten sh i st.session }
      · exact .inl hP
      · have hends : Ends (readCounts sh b st.session.caps f) (behindLogits sh i)
            fun _ _ => True := by
          by_contra hfails
          exact hP (leaves_read.mp hcounts.1 (fails_iff.mpr hfails))
        obtain ⟨p, j, hrun, -⟩ := hends
        refine .inr ⟨hstream, ⟨p, j, hrun, trivial⟩, fun hgraph => ?_⟩
        have hfinish := (leaves_bind.mp (hcounts.2 p _ (read_runs_iff.mpr ⟨j, hrun, rfl⟩))).1
        by_contra hfault
        exact hP ((leaves_finish hvalid).mp hfinish hgraph (Bool.eq_true_of_not_eq_false hfault))
  · obtain ⟨i, hfront, rfl⟩ := read_runs_iff.mp hrun
    refine leaves_bind.mpr ⟨(leaves_readLogits { st with input := i } hsame).mpr ?_, ?_⟩
    · intro hremaining hstream
      exact (h i hfront hremaining).resolve_right fun hright =>
        absurd hright.1 (Nat.not_le.mpr hstream)
    · intro u st₂ hlogits
      obtain ⟨hremaining, hstream, rfl⟩ := readLogits_runs_iff.mp hlogits
      refine leaves_bind.mpr ⟨leaves_read.mpr fun hfails => ?_, fun p st₃ hcounts => ?_⟩
      · exact (h i hfront hremaining).resolve_right fun hright =>
          fails_iff.mp hfails hright.2.1
      · obtain ⟨j, hcounts, rfl⟩ := read_runs_iff.mp hcounts
        refine leaves_bind.mpr ⟨(leaves_finish hvalid).mpr fun hgraph hfault => ?_,
          fun _ st₄ _ => leaves_of_runs (runs_pure _ _)⟩
        exact (h i hfront hremaining).resolve_right fun hright =>
          absurd (hright.2.2 hgraph) (by rw [show st.faults.headD false = true from hfault]; nofun)

end Failure

/-! ### Where the rows stand -/

theorem mem_rowSlots {rawCap tokens rawLive : ℕ} {ils ns ms : List ℕ} {slot : Slot} :
    slot ∈ rowSlots sh rawCap tokens rawLive ils ns ms ↔ ∃ x ∈ ils.zip (ns.zip ms),
      slot.1 = x.1 ∧
        slot.2 ∈ Shape.spans rawCap tokens rawLive (sh.compressRatio x.1) x.2.1 x.2.2 := by
  induction ils, ns, ms using rowSlots.induct with
  | case1 il ils n ns m ms ih =>
    simp only [rowSlots, mem_append, mem_map, ih, zip_cons_cons, exists_mem_cons_iff]
    refine or_congr_left ⟨?_, ?_⟩
    · rintro ⟨span, hspan, rfl⟩
      exact ⟨rfl, hspan⟩
    · rintro ⟨hil, hspan⟩
      exact ⟨slot.2, hspan, Prod.ext hil.symm rfl⟩
  | case2 ils ns ms hcons =>
    simp only [rowSlots, not_mem_nil, false_iff]
    rintro ⟨x, hx, -⟩
    cases ils with
    | nil => simp at hx
    | cons il ils => cases ns with
      | nil => simp at hx
      | cons n ns => cases ms with
        | nil => simp at hx
        | cons m ms => exact hcons il ils n ns m ms rfl rfl rfl

/-- The capacity that the processor's row counts are held against is that of the layers with
indexer rows. -/
theorem cpuCompCap_eq {il : ℕ} (hil : il < sh.nLayer) (hratio : sh.compressRatio il = 4) :
    Backend.cpuCompCap sh c = sh.layerCompCap c il := by
  unfold Backend.cpuCompCap
  cases hfind : (range sh.nLayer).find? fun il => sh.compressRatio il = 4 with
  | none =>
    have hnone := find?_eq_none.mp hfind il (mem_range.mpr hil)
    simp [hratio] at hnone
  | some first =>
    have hfirst := find?_some hfind
    simp only [decide_eq_true_eq] at hfirst
    simp only [hfind, Option.some_or, Option.map_some, Option.getD_some, Shape.layerCompCap,
      hfirst, hratio]

/-- The row counts of the layers of the processor that have compressed rows fit their layers. -/
def CountsFit (sh : Shape) (c : Caps) (p : Shard) : Prop :=
  ∀ x ∈ (range sh.nLayer).zip (p.nComp.zip p.nIndexComp), sh.compressRatio x.1 ≠ 0 →
    x.2.1 ≤ sh.layerCompCap c x.1

theorem mem_zip_zip {α β γ : Type} {as : List α} {bs : List β} {cs : List γ} {x : α × β × γ}
    (h : x ∈ as.zip (bs.zip cs)) : (x.1, x.2.1) ∈ as.zip bs ∧ (x.1, x.2.2) ∈ as.zip cs := by
  obtain ⟨k, hk⟩ := mem_iff_getElem?.mp h
  obtain ⟨ha, hbc⟩ := getElem?_zip_eq_some.mp hk
  obtain ⟨hb, hc⟩ := getElem?_zip_eq_some.mp hbc
  exact ⟨mem_iff_getElem?.mpr ⟨k, getElem?_zip_eq_some.mpr ⟨ha, hb⟩⟩,
    mem_iff_getElem?.mpr ⟨k, getElem?_zip_eq_some.mpr ⟨ha, hc⟩⟩⟩

theorem counts_le {i j : Input} (hcounts : Runs (readCounts sh b c f) i p j) :
    ∀ x ∈ (range sh.nLayer).zip (p.nComp.zip p.nIndexComp),
      x.2.1 ≤ b.countCap sh c x.1 ∧ x.2.2 ≤ b.countCap sh c x.1 := by
  obtain ⟨nComp, j₁, hcomp, hcounts⟩ := hcounts.of_bind
  obtain ⟨nIndexComp, j₂, hindex, hcounts⟩ := hcounts.of_bind
  obtain ⟨rfl, -⟩ := hcounts.unique (runs_pure _ j₂)
  have hle : ∀ {ns : List ℕ}, List.Forall₂ (fun (ok : ℕ → Bool) n => ok n = true ∧ n < 2 ^ 32)
      ((range sh.nLayer).map fun il n =>
        decide (n ≤ f.compCap) && decide (n ≤ b.countCap sh c il)) ns →
      ∀ y ∈ (range sh.nLayer).zip ns, y.2 ≤ b.countCap sh c y.1 := by
    intro ns h y hy
    have hok := ((forall₂_iff_zip.mp (forall₂_map_left_iff.mp h)).2 hy).1
    simp only [Bool.and_eq_true, decide_eq_true_eq] at hok
    exact hok.2
  intro x hx
  obtain ⟨hn, hm⟩ := mem_zip_zip hx
  exact ⟨hle (readChecked_spec hcomp) _ hn, hle (readChecked_spec hindex) _ hm⟩

theorem cpu_slots_inside {i j : Input} (hcounts : Runs (readCounts sh .cpu c f) i p j) :
    (∀ slot ∈ Backend.cpu.slots sh c p, slot.2.2 < Backend.cpu.rowCount sh c slot.1 slot.2.1) ↔
      CountsFit sh c p := by
  constructor
  · intro h x hx hratio
    by_contra hlt
    have hmem : (x.1, (Tensor.attnCompCache, x.2.1 - 1)) ∈ Backend.cpu.slots sh c p := by
      refine mem_rowSlots.mpr ⟨x, hx, rfl, mem_append_right _ ?_⟩
      rw [if_neg hratio, append_assoc]
      exact mem_append_left _ (mem_map_of_mem (mem_range.mpr (by omega : x.2.1 - 1 < x.2.1)))
    have hinside : x.2.1 - 1 < sh.layerCompCap c x.1 := h _ hmem
    omega
  · rintro h slot hslot
    obtain ⟨x, hx, hil, hspan⟩ := mem_rowSlots.mp hslot
    rw [hil]
    refine Shape.spans_inside (sh.rawWindow_pos c) le_rfl (h x hx) (fun hfour => ?_) ?_ hspan
    · have hle := (counts_le hcounts x hx).2
      rwa [Backend.countCap, cpuCompCap_eq (mem_range.mp (of_mem_zip hx).1) hfour] at hle
    · intro t hraw hcomp hindex
      cases t <;> simp_all [Backend.rowCount, Shape.rowCount]

/-! ### Rows of the processor -/

theorem ends_cpuRows {slots : List Slot} {Q : Input → Prop} :
    Ends (slots.forM (cpuRow sh)) st (fun _ st' => Q st'.input) ↔
      sizeOf sh slots ≤ st.input.remaining ∧ sizeOf sh slots ≤ st.input.stream.length ∧
        Q ⟨st.input.stream.drop (sizeOf sh slots), st.input.remaining - sizeOf sh slots⟩ := by
  induction slots generalizing st with
  | nil =>
    have hnil : Runs (([] : List Slot).forM (cpuRow sh)) st ⟨⟩ st := rfl
    rw [ends_iff hnil]
    simp
  | cons slot slots ih =>
    rw [show (slot :: slots).forM (cpuRow sh) =
      (cpuRow sh slot >>= fun _ => slots.forM (cpuRow sh)) from rfl, ends_bind]
    unfold cpuRow
    rw [ends_bind, ends_read, sizeOf_cons]
    constructor
    · rintro ⟨b, i, hread, hrest⟩
      obtain ⟨hr, hs, rfl, rfl⟩ := readBytes_runs_iff.mp hread
      obtain ⟨hrs, hss, hQ⟩ := ih.mp ((ends_iff (runs_modify _ _)).mp hrest)
      simp only [length_drop, drop_drop, Nat.sub_sub] at hrs hss hQ
      exact ⟨by omega, by omega, hQ⟩
    · rintro ⟨hr, hs, hQ⟩
      refine ⟨_, _, readBytes_run (by omega) (by omega), (ends_iff (runs_modify _ _)).mpr ?_⟩
      refine ih.mpr ⟨?_, ?_, ?_⟩
      · change _ ≤ st.input.remaining - _
        omega
      · change _ ≤ (st.input.stream.drop _).length
        rw [length_drop]
        omega
      · simpa only [drop_drop, Nat.sub_sub] using hQ

theorem ends_finish_cpu :
    Ends (finish sh .cpu c f p) st (fun _ _ => True) ↔
      sizeOf sh (Backend.cpu.slots sh c p) = st.input.remaining ∧
        st.input.remaining ≤ st.input.stream.length := by
  unfold finish
  have hsync : ∀ e st, Runs (synchronize .cpu e) st () st := fun e st => rfl
  rw [ends_runs_bind (hsync _ _), ends_runs_bind (runs_modify _ _), ends_bind]
  have hrest : ∀ st' : Restoring, Ends (do
      let st ← get
      reject (st.input.remaining != 0) "KV checkpoint has trailing payload bytes"
      synchronize .cpu "failed to synchronize accelerator after KV restore"
      modify fun st : Restoring => { st with
        session := Backend.cpu.commit sh f.tokens p st.session } : Restore Unit) st'
      (fun _ _ => True) ↔ st'.input.remaining = 0 := by
    intro st'
    rw [ends_runs_bind (runs_get st'), ends_bind, ends_reject, ends_runs_bind (hsync _ _),
      ends_iff (runs_modify _ _)]
    simp
  simp only [hrest]
  rw [show Backend.cpu.row sh = cpuRow sh from rfl, ends_cpuRows (Q := fun i => i.remaining = 0)]
  change _ ≤ st.input.remaining ∧ _ ≤ st.input.stream.length ∧ st.input.remaining - _ = 0 ↔ _
  omega

theorem loadPayload_runs_iff {slots : List Slot} :
    Runs (loadPayload sh b) st slots st' ↔
      ∃ f i p j, Runs (readSessionFront sh b st.session.caps) st.input f i ∧
        logitBytes sh ≤ i.remaining ∧ logitBytes sh ≤ i.stream.length ∧
        Runs (readCounts sh b st.session.caps f) (behindLogits sh i) p j ∧
        Runs (finish sh b st.session.caps f p)
          { logitsDone sh { st with input := i } with input := j } () st' ∧
        slots = b.slots sh st.session.caps p := by
  constructor
  · intro h
    unfold loadPayload at h
    rw [Runs, bind_run (runs_get st)] at h
    obtain ⟨f, st₁, hfront, hrest⟩ := Runs.of_bind h
    obtain ⟨i, hreadFront, rfl⟩ := read_runs_iff.mp hfront
    obtain ⟨u, st₂, hlogits, hrest⟩ := hrest.of_bind
    obtain ⟨hremaining, hstream, rfl⟩ := readLogits_runs_iff.mp hlogits
    obtain ⟨p, st₃, hcounts, hrest⟩ := hrest.of_bind
    obtain ⟨j, hreadCounts, rfl⟩ := read_runs_iff.mp hcounts
    obtain ⟨u, st₄, hfinish, hrest⟩ := hrest.of_bind
    obtain ⟨rfl, rfl⟩ := hrest.unique (runs_pure _ _)
    exact ⟨f, i, p, j, hreadFront, hremaining, hstream, hreadCounts, hfinish, rfl⟩
  · rintro ⟨f, i, p, j, hfront, hremaining, hstream, hcounts, hfinish, rfl⟩
    refine (runs_get st).bind ((read_runs_iff.mpr ⟨i, hfront, rfl⟩).bind ?_)
    refine (readLogits_runs_iff.mpr ⟨hremaining, hstream, rfl⟩ :
      Runs (readLogits sh) _ () _).bind ?_
    exact (read_runs_iff.mpr ⟨j, hcounts, rfl⟩).bind (hfinish.bind (runs_pure _ _))

theorem graph_slots_inside (h : Runs (finish sh .graph c f p) st () st')
    (hcaps : st.session.caps = c) :
    ∀ slot ∈ Backend.graph.slots sh c p,
      slot.2.2 < Backend.graph.rowCount sh c slot.1 slot.2.1 := by
  obtain ⟨u, st₁, hsync, h⟩ := h.of_bind
  have hsession : st₁.session = st.session := (keeps_synchronize _).runs hsync
  obtain ⟨u, st₂, hmodify, h⟩ := h.of_bind
  obtain ⟨-, rfl⟩ := hmodify.unique (runs_modify _ st₁)
  obtain ⟨u, st₃, hrows, -⟩ := h.of_bind
  have hinside := (ends_rows.mp (⟨u, st₃, hrows, trivial⟩ :
    Ends ((Backend.graph.slots sh c p).forM (row sh)) _ fun _ _ => True)).1
  intro slot hslot
  have hlt := hinside slot hslot
  rw [show (Backend.graph.begin sh st₁.session).caps = c from hsession ▸ hcaps] at hlt
  cases ht : slot.2.1 <;> rw [ht] at hlt <;> exact hlt

/-- The row counts of every payload that the processor takes fit its layers. -/
def Fitting (sh : Shape) (st : Restoring) : Prop :=
  ∀ f i p j, Runs (readSessionFront sh .cpu st.session.caps) st.input f i →
    logitBytes sh ≤ i.remaining → logitBytes sh ≤ i.stream.length →
      Runs (readCounts sh .cpu st.session.caps f) (behindLogits sh i) p j →
        sizeOf sh (Backend.cpu.slots sh st.session.caps p) = j.remaining →
          j.remaining ≤ j.stream.length → CountsFit sh st.session.caps p

/-- A payload that is rejected behind the logits finds no valid checkpoint, or it has brought the
logits that were there. -/
def Harmless (sh : Shape) (b : Backend) (st : Restoring) : Prop :=
  ∀ f i, Runs (readSessionFront sh b st.session.caps) st.input f i →
    logitBytes sh ≤ i.remaining →
      st.session.checkpointValid = false ∨ overwritten sh i st.session = st.session.logits ∨
        logitBytes sh ≤ i.stream.length ∧
          Ends (readCounts sh b st.session.caps f) (behindLogits sh i) (fun _ _ => True) ∧
          (b = .graph → st.faults.headD false = false)

/-- A load leaves a usable session and stays inside of the tensors exactly if it is not rejected
between the logits and the point from which the checkpoint does not hold, and the row counts fit
their layers on the processor. -/
theorem loadPayload_usable_iff (sh : Shape) (b : Backend) (st : Restoring) :
    Usable sh b st ↔ Harmless sh b st ∧ (b = .cpu → Fitting sh st) := by
  refine and_congr ?_ ?_
  · rw [leaves_loadPayload (P := fun s => s.checkpointValid = false ∨ st.session.Same s)
      (fun _ h => .inl h) (.inr ⟨rfl, rfl, rfl⟩)]
    simp only [Session.Same, true_and, and_true, or_assoc]
    rfl
  · cases b with
    | cpu =>
      rw [imp_iff_right rfl]
      constructor
      · intro h f i p j hfront hremaining hstream hcounts hsize hfile
        have hends : Ends (finish sh .cpu st.session.caps f p)
            { logitsDone sh { st with input := i } with input := j } fun _ _ => True :=
          ends_finish_cpu.mpr ⟨hsize, hfile⟩
        obtain ⟨u, st', hfinish, -⟩ := hends
        exact (cpu_slots_inside hcounts).mp (h _ st' (loadPayload_runs_iff.mpr
          ⟨f, i, p, j, hfront, hremaining, hstream, hcounts, hfinish, rfl⟩))
      · intro h slots st' hrun
        obtain ⟨f, i, p, j, hfront, hremaining, hstream, hcounts, hfinish, rfl⟩ :=
          loadPayload_runs_iff.mp hrun
        obtain ⟨hsize, hfile⟩ := ends_finish_cpu.mp ⟨(), st', hfinish, trivial⟩
        exact (cpu_slots_inside hcounts).mpr
          (h f i p j hfront hremaining hstream hcounts hsize hfile)
    | graph =>
      refine iff_of_true (fun slots st' hrun => ?_) nofun
      obtain ⟨f, i, p, j, -, -, -, -, hfinish, rfl⟩ := loadPayload_runs_iff.mp hrun
      exact graph_slots_inside hfinish rfl

/-! ### Two payloads -/

theorem small_lt : 2 < 2 ^ 7 := by decide

theorem one_lt_small : 1 < 2 ^ 16 := by decide

theorem one_lt_vocab : 1 < 2 ^ 31 := by decide

theorem smallRatio_le (il : ℕ) : (if il = 0 then 4 else 128) ≤ 128 := by split_ifs <;> omega

def Shape.small : Shape where
  nLayer := 2
  headDim := 1
  indexerHeadDim := 1
  nVocab := 1
  nSwa := 1
  compressRatio il := if il = 0 then 4 else 128
  f16AsF32 := id
  f32AsF16 := id
  nLayer_lt := small_lt
  headDim_lt := one_lt_small
  indexerHeadDim_lt := one_lt_small
  nVocab_lt := one_lt_vocab
  compressRatio_le := smallRatio_le

/-- A valid session with logits of zero loads a payload. -/
def loading (payload : Bytes) : Restoring where
  input := .ofBytes payload
  session :=
    { caps := ⟨8, 1, 1, by decide, by decide, by decide⟩
      layer := fun _ => ⟨fun _ => [], 0, 0⟩
      checkpoint := []
      checkpointValid := true
      logits := put 4 0
      mtpDraftValid := false
      mtpNRaw := 0 }
  faults := []

/-- The front of a payload without tokens, with logits of one. -/
def smallFront : Bytes :=
  words [sessionMagic, sessionVersion, 8, 1, 1, 1, 4, 0, 2, 1, 1, 1, 0] ++ put 4 1

/-- A payload that ends behind its logits leaves them in a valid session, and one whose second
layer has four compressed rows is taken by a processor that has room for two of them. -/
theorem loadPayload_unusable :
    ¬ Usable .small .graph (loading smallFront) ∧
      ¬ Usable .small .cpu (loading (smallFront ++ words [0, 4, 0, 0] ++
        replicate (4 * 64 + 4 * 4 + 2 * 512) 0)) := by
  constructor
  · rintro ⟨h, -⟩
    have hfails : Fails (loadPayload .small .graph) (loading smallFront) := ⟨_, _, rfl⟩
    rcases h hfails with hvalid | ⟨-, hlogits, -⟩
    · revert hvalid
      decide
    · revert hlogits
      decide
  · rintro ⟨-, h⟩
    have houtside : (match loadPayload .small .cpu (loading (smallFront ++ words [0, 4, 0, 0] ++
        replicate (4 * 64 + 4 * 4 + 2 * 512) 0)) with
      | .ok slots _ => slots.any fun slot =>
          Backend.cpu.rowCount .small ⟨8, 1, 1, by decide, by decide, by decide⟩ slot.1 slot.2.1 ≤
            slot.2.2
      | .error _ _ => false) = true := by decide +kernel
    split at houtside
    case h_1 slots st' hrun =>
      obtain ⟨slot, hslot, hle⟩ := any_eq_true.mp houtside
      exact Nat.not_lt.mpr (of_decide_eq_true hle) (h slots st' hrun slot hslot)
    case h_2 => cases houtside

end Ds4Studio.Payload
