import Ds4Studio.Payload.Slices

/-!
What restoring a slice does: exactly when it succeeds, which session it leaves then,
and that a restore that fails on the way leaves no valid session.
-/

namespace Ds4Studio.Payload

open LittleEndian Stateful Reader

variable {sh : Shape}

def slotBytes (sh : Shape) (slot : Slot) : ℕ := sh.rowBytes slot.1 slot.2.1

def sizeOf (sh : Shape) (slots : List Slot) : ℕ := (slots.map (slotBytes sh)).sum

@[simp] theorem sizeOf_nil : sizeOf sh [] = 0 := rfl

@[simp] theorem sizeOf_cons (slot : Slot) (slots : List Slot) :
    sizeOf sh (slot :: slots) = slotBytes sh slot + sizeOf sh slots := by
  simp [sizeOf]

@[simp] theorem sizeOf_append (slots slots' : List Slot) :
    sizeOf sh (slots ++ slots') = sizeOf sh slots + sizeOf sh slots' := by
  simp [sizeOf]

private theorem sizeOf_rows (sh : Shape) (il n : ℕ) (t : Tensor) (f : ℕ → ℕ) :
    sizeOf sh (((List.range n).map fun r => (t, f r)).map fun span => (il, span)) =
      n * sh.rowBytes il t := by
  simp [sizeOf, slotBytes, Function.comp_def]

theorem sizeOf_spans (rawCap tokens rawLive il nComp nIndexComp : ℕ) :
    sizeOf sh ((Shape.spans rawCap tokens rawLive (sh.compressRatio il) nComp nIndexComp).map
      fun span => (il, span)) = layerTensorBytes sh rawLive il nComp nIndexComp := by
  have hraw := sizeOf_rows sh il rawLive .rawCache fun r => (tokens - rawLive + r) % rawCap
  have hcomp := sizeOf_rows sh il nComp .attnCompCache fun r => r
  have hindex := sizeOf_rows sh il nIndexComp .indexCompCache fun r => r
  unfold Shape.spans layerTensorBytes
  simp only [Shape.rowBytes] at hraw hcomp hindex
  by_cases h0 : sh.compressRatio il = 0
  · simp only [if_pos h0, List.append_nil, hraw, Nat.mul_assoc]
  · by_cases h4 : sh.compressRatio il = 4
    · simp only [if_neg h0, if_pos h4, List.map_append, sizeOf_append, hraw, hcomp, hindex]
      simp only [List.map_cons, List.map_nil, sizeOf_cons, sizeOf_nil, slotBytes, Shape.rowBytes,
        Nat.mul_assoc]
      omega
    · simp only [if_neg h0, if_neg h4, List.map_append, sizeOf_append, hraw, hcomp]
      simp only [List.map_cons, List.map_nil, sizeOf_cons, sizeOf_nil, slotBytes, Shape.rowBytes,
        Nat.mul_assoc]
      omega

/-- The session once the rows at the front of `b` stand in its slots. -/
def Session.restoreBytes (sh : Shape) : List Slot → Bytes → Session → Session
  | [], _, s => s
  | slot :: rest, b, s =>
      restoreBytes sh rest (b.drop (slotBytes sh slot))
        (s.restore sh slot.1 slot.2 (b.take (slotBytes sh slot)))

@[simp] theorem Session.restore_caps (s : Session) (il : ℕ) (span : Tensor × ℕ) (row : Bytes) :
    (s.restore sh il span row).caps = s.caps := rfl

variable (slots : List Slot) (b : Bytes)

@[simp] theorem Session.restoreBytes_caps (s : Session) :
    (s.restoreBytes sh slots b).caps = s.caps := by
  induction slots generalizing b s with
  | nil => rfl
  | cons slot slots ih => simp [Session.restoreBytes, ih]

@[simp] theorem Session.restoreBytes_logits (s : Session) :
    (s.restoreBytes sh slots b).logits = s.logits := by
  induction slots generalizing b s with
  | nil => rfl
  | cons slot slots ih => rw [Session.restoreBytes, ih]; rfl

theorem Session.restoreBytes_counts (s : Session) (il : ℕ) :
    ((s.restoreBytes sh slots b).layer il).nComp = (s.layer il).nComp ∧
      ((s.restoreBytes sh slots b).layer il).nIndexComp = (s.layer il).nIndexComp := by
  induction slots generalizing b s with
  | nil => exact ⟨rfl, rfl⟩
  | cons slot slots ih =>
    have h := ih (b.drop (slotBytes sh slot))
      (s.restore sh slot.1 slot.2 (b.take (slotBytes sh slot)))
    rw [Session.restoreBytes, h.1, h.2]
    by_cases hil : il = slot.1
    · subst hil
      simp [Session.restore, Layer.restore]
    · simp [Session.restore, hil]

namespace Restore

variable {st : Restoring}

theorem ends_read {α : Type} {m : Reader α} {Q : α → Restoring → Prop} :
    Ends (read m) st Q ↔ Ends m st.input fun a i => Q a { st with input := i } := ends_zoom

theorem operate_runs {e : String} (h : st.faults.headD false = false) :
    Runs (operate e) st () { st with faults := st.faults.tail } := by
  refine (runs_get st).bind ?_
  have hset : Runs (set { st with faults := st.faults.tail } : Restore PUnit) st ⟨⟩
      { st with faults := st.faults.tail } := rfl
  exact hset.bind (runs_reject h _)

theorem ends_operate {e : String} {Q : Unit → Restoring → Prop} :
    Ends (operate e) st Q ↔
      st.faults.headD false = false ∧ Q () { st with faults := st.faults.tail } := by
  cases h : st.faults.headD false with
  | false => simp [ends_iff (operate_runs h)]
  | true =>
    have hset : Runs (set { st with faults := st.faults.tail } : Restore PUnit) st ⟨⟩
        { st with faults := st.faults.tail } := rfl
    have hfails : Fails (operate e) st :=
      fails_bind (runs_get st) (fails_bind hset (fails_reject h _))
    simpa using not_ends hfails

/-- None of the next `n` operations of the accelerator fails. -/
def Steady (n : ℕ) (faults : List Bool) : Prop := ∀ f ∈ faults.take n, f = false

theorem steady_succ {n : ℕ} {faults : List Bool} :
    Steady (n + 1) faults ↔ faults.headD false = false ∧ Steady n faults.tail := by
  cases faults with
  | nil => simp [Steady]
  | cons f faults => simp [Steady]

theorem steady_succ_last {n : ℕ} {faults : List Bool} :
    Steady (n + 1) faults ↔ Steady n faults ∧ (faults.drop n).headD false = false := by
  induction n generalizing faults with
  | zero => rw [steady_succ]; simp [Steady]
  | succ n ih => rw [steady_succ, ih, steady_succ, List.drop_tail, and_assoc]

@[simp] theorem steady_zero (faults : List Bool) : Steady 0 faults := by simp [Steady]

/-- The state behind a row that stands. -/
def rowDone (sh : Shape) (slot : Slot) (st : Restoring) : Restoring where
  input := ⟨st.input.stream.drop (slotBytes sh slot), st.input.remaining - slotBytes sh slot⟩
  session := st.session.restore sh slot.1 slot.2 (st.input.stream.take (slotBytes sh slot))
  faults := st.faults.tail

theorem ends_row {slot : Slot} {Q : PUnit → Restoring → Prop} :
    Ends (row sh slot) st Q ↔
      slot.2.2 < sh.rowCount st.session.caps slot.1 slot.2.1 ∧
        slotBytes sh slot ≤ st.input.remaining ∧ slotBytes sh slot ≤ st.input.stream.length ∧
        st.faults.headD false = false ∧ Q ⟨⟩ (rowDone sh slot st) := by
  unfold row
  rw [ends_runs_bind (runs_get st), ends_bind, ends_reject, ends_bind, ends_read]
  simp only [decide_eq_false_iff_not, not_le]
  refine and_congr_right fun _ => ?_
  constructor
  · rintro ⟨b, i, hread, h⟩
    obtain ⟨hr, hs, rfl, rfl⟩ := readBytes_runs_iff.mp hread
    obtain ⟨hfault, h⟩ := ends_operate.mp (ends_bind.mp h)
    exact ⟨hr, hs, hfault, (ends_iff (runs_modify _ _)).mp h⟩
  · rintro ⟨hr, hs, hfault, h⟩
    refine ⟨_, _, readBytes_run hr hs, ends_bind.mpr (ends_operate.mpr ⟨hfault, ?_⟩)⟩
    exact (ends_iff (runs_modify _ _)).mpr h

/-- The state behind a list of rows. -/
def rowsDone (sh : Shape) (slots : List Slot) (st : Restoring) : Restoring where
  input := ⟨st.input.stream.drop (sizeOf sh slots), st.input.remaining - sizeOf sh slots⟩
  session := st.session.restoreBytes sh slots st.input.stream
  faults := st.faults.drop slots.length

theorem rowsDone_cons (slot : Slot) (slots : List Slot) (st : Restoring) :
    rowsDone sh (slot :: slots) st = rowsDone sh slots (rowDone sh slot st) := by
  simp [rowsDone, rowDone, Session.restoreBytes, List.drop_drop, Nat.sub_sub]

/-- Rows are restored exactly where they fit their tensors, the file holds all of them
and the accelerator stores all of them. -/
theorem ends_rows {slots : List Slot} {Q : PUnit → Restoring → Prop} :
    Ends (slots.forM (row sh)) st Q ↔
      (∀ slot ∈ slots, slot.2.2 < sh.rowCount st.session.caps slot.1 slot.2.1) ∧
        sizeOf sh slots ≤ st.input.remaining ∧ sizeOf sh slots ≤ st.input.stream.length ∧
        Steady slots.length st.faults ∧ Q ⟨⟩ (rowsDone sh slots st) := by
  induction slots generalizing st with
  | nil =>
    have hnil : Runs (([] : List Slot).forM (row sh)) st ⟨⟩ st := rfl
    rw [ends_iff hnil]
    simp [rowsDone, Session.restoreBytes]
  | cons slot slots ih =>
    rw [show (slot :: slots).forM (row sh) = (row sh slot >>= fun _ => slots.forM (row sh)) from rfl,
      ends_bind, ends_row, ih, ← rowsDone_cons, List.length_cons, steady_succ]
    simp only [rowDone, Session.restore_caps, List.forall_mem_cons, sizeOf_cons, List.length_drop]
    constructor
    · rintro ⟨hfit, hr, hs, hfault, hfits, hrs, hss, hsteady, h⟩
      exact ⟨⟨hfit, hfits⟩, by omega, by omega, ⟨hfault, hsteady⟩, h⟩
    · rintro ⟨⟨hfit, hfits⟩, hr, hs, ⟨hfault, hsteady⟩, h⟩
      exact ⟨hfit, by omega, by omega, hfault, hfits, by omega, by omega, hsteady, h⟩

theorem commit_layer {tokens : List ℕ} {p : Shard} {s : Session} {il : ℕ}
    (h : p.layerStart ≤ il ∧ il < p.layerStart + p.nComp.length) :
    (commit tokens p s).layer il = { s.layer il with
      nComp := p.nComp.getD (il - p.layerStart) 0
      nIndexComp := p.nIndexComp.getD (il - p.layerStart) 0 } := if_pos h

theorem commit_rows (tokens : List ℕ) (p : Shard) (s : Session) (il : ℕ) :
    ((commit tokens p s).layer il).rows = (s.layer il).rows := by
  simp only [commit]
  split_ifs <;> rfl

/-- The session a restored slice leaves. -/
def restored (sh : Shape) (tokens : List ℕ) (p : Shard) (rows : Bytes) (s : Session) : Session :=
  commit tokens p ((invalidate s).restoreBytes sh (p.slots sh (sh.rawCap s.caps)) rows)

/-- A slice is restored exactly where its front is accepted, its rows are the rest of the
payload and the accelerator works through to the end. -/
theorem ends_layerPayload {tokens : List ℕ} {layerStart layerEnd : ℕ} {Q : Session → Prop} :
    Ends (layerPayload sh tokens layerStart layerEnd) st (fun _ st' => Q st'.session) ↔
      Ends (readShard sh st.session tokens.length layerStart layerEnd) st.input fun p i =>
        (∀ slot ∈ p.slots sh (sh.rawCap st.session.caps),
            slot.2.2 < sh.rowCount st.session.caps slot.1 slot.2.1) ∧
          sizeOf sh (p.slots sh (sh.rawCap st.session.caps)) = i.remaining ∧
          i.remaining ≤ i.stream.length ∧
          Steady ((p.slots sh (sh.rawCap st.session.caps)).length + 2) st.faults ∧
          Q (restored sh tokens p i.stream st.session) := by
  unfold layerPayload
  rw [ends_runs_bind (runs_get st), ends_bind, ends_read]
  refine exists_congr fun p => exists_congr fun i => and_congr_right fun _ => ?_
  beta_reduce
  rw [ends_bind, ends_operate, ends_runs_bind (runs_modify _ _), ends_bind, ends_rows,
    ends_runs_bind (runs_get _), ends_bind, ends_reject, ends_bind, ends_operate,
    ends_iff (runs_modify _ _), steady_succ, steady_succ_last]
  simp only [rowsDone, invalidate, bne_eq_false_iff_eq]
  constructor
  · rintro ⟨hsync, hfit, hr, hs, hsteady, htrail, hsync', hQ⟩
    exact ⟨hfit, by omega, by omega, ⟨hsync, hsteady, hsync'⟩, hQ⟩
  · rintro ⟨hfit, hr, hs, ⟨hsync, hsteady, hsync'⟩, hQ⟩
    exact ⟨hsync, hfit, by omega, by omega, hsteady, by omega, hsync', hQ⟩

section Failure

theorem keeps_read {α : Type} (m : Reader α) :
    Keeps (fun st st' : Restoring => st'.session = st.session) (read m) :=
  keeps_zoom fun _ _ => rfl

theorem keeps_operate (e : String) :
    Keeps (fun st st' : Restoring => st'.session = st.session) (operate e) := by
  intro st
  unfold after
  cases h : st.faults.headD false with
  | false => rw [show operate e st = _ from operate_runs h]
  | true =>
    have herror : operate e st = .error e { st with faults := st.faults.tail } := by
      change (reject (st.faults.headD false) e : Restore Unit) _ = _
      rw [h]
      rfl
    rw [herror]

/-- The checkpoint is as valid as it was. -/
def SameValid (st st' : Restoring) : Prop :=
  st'.session.checkpointValid = st.session.checkpointValid

theorem SameValid.refl (st : Restoring) : SameValid st st := rfl

theorem SameValid.trans {st st' st'' : Restoring} (h : SameValid st st')
    (h' : SameValid st' st'') : SameValid st st'' := Eq.trans h' h

theorem SameValid.of_session {st st' : Restoring} (h : st'.session = st.session) :
    SameValid st st' := by rw [SameValid, h]

theorem keeps_row (slot : Slot) : Keeps SameValid (row sh slot) := by
  refine Keeps.bind SameValid.trans (fun _ => rfl) fun st => ?_
  refine Keeps.bind SameValid.trans (keeps_reject SameValid.refl _ _) fun _ => ?_
  refine Keeps.bind SameValid.trans ((keeps_read _).mono fun _ _ => .of_session) fun b => ?_
  refine Keeps.bind SameValid.trans ((keeps_operate _).mono fun _ _ => .of_session) fun _ => ?_
  exact fun _ => rfl

theorem layerPayload_leaves {tokens : List ℕ} {layerStart layerEnd : ℕ} (st : Restoring) :
    Leaves (layerPayload sh tokens layerStart layerEnd) st fun st' =>
      st'.session = st.session ∨ st'.session.checkpointValid = false := by
  refine (leaves_of_runs (runs_get st)).bind fun st₁ st₂ hget => ?_
  obtain ⟨rfl, rfl⟩ := hget.unique (runs_get st)
  refine ((keeps_read _).leaves fun _ h => .inl h).bind fun p st₃ hread => ?_
  have h₃ : st₃.session = st₂.session := (keeps_read _).runs hread
  refine ((keeps_operate _).leaves fun _ h => .inl (h.trans h₃)).bind fun _ st₄ hsync => ?_
  refine (leaves_of_runs (runs_modify _ st₄)).bind fun _ st₅ hmod => ?_
  obtain ⟨-, rfl⟩ := hmod.unique (runs_modify _ st₄)
  have hrows : Keeps SameValid ((p.slots sh (sh.rawCap st₂.session.caps)).forM (row sh)) :=
    keeps_forM SameValid.refl SameValid.trans _ fun slot _ => keeps_row slot
  refine (hrows.leaves fun st₆ h => .inr h).bind fun _ st₆ hrun => ?_
  have h₆ : st₆.session.checkpointValid = false := hrows.runs hrun
  refine (leaves_of_runs (runs_get st₆)).bind fun st₇ st₈ hget => ?_
  obtain ⟨rfl, rfl⟩ := hget.unique (runs_get st₆)
  refine ((keeps_reject (R := Eq) (fun _ => rfl) _ _).leaves fun st₉ h => ?_).bind ?_
  · exact .inr (h ▸ h₆)
  · intro _ st₉ hrun
    have h₉ : st₉.session = st₈.session := by
      have heq := (keeps_reject (R := Eq) (fun _ => rfl) _ _).runs hrun
      rw [← heq]
    have hlast : ∀ st' : Restoring, st'.session = st₉.session →
        st'.session.checkpointValid = false := by
      intro st' h
      rw [h, h₉]
      exact h₆
    refine ((keeps_operate _).leaves fun st' h => .inr (hlast st' h)).bind fun _ st' _ => ?_
    exact leaves_of_runs (runs_modify _ st')

end Failure

end Restore

end Ds4Studio.Payload
