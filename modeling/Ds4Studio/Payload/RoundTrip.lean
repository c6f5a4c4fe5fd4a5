import Ds4Studio.Payload.Restore

/-!
Rows that a session has written stand in any session that restores them: in a ring of
another size they move, and nothing else about them changes.
-/

namespace Ds4Studio.Payload

open List Reader Stateful

variable {sh : Shape}

namespace Session

/-- The rows of some layers as a payload spells them. -/
def rows (sh : Shape) (s : Session) (ils : List ℕ) : Bytes := (s.slots sh ils).flatMap (s.spell sh)

theorem rows_append (s : Session) (ils ils' : List ℕ) :
    s.rows sh (ils ++ ils') = s.rows sh ils ++ s.rows sh ils' := by
  simp [rows, slots]

theorem rows_cons (s : Session) (il : ℕ) (ils : List ℕ) :
    s.rows sh (il :: ils) = (s.content sh il).rows.flatten ++ s.rows sh ils := by
  simp only [rows, slots, flatMap_cons, flatMap_append, content]
  rw [flatMap_map]
  rfl

variable {ils : List ℕ}

theorem rows_congr {s t : Session}
    (h : ∀ il ∈ ils, s.content sh il = t.content sh il) : s.rows sh ils = t.rows sh ils := by
  induction ils with
  | nil => rfl
  | cons il ils ih =>
    rw [rows_cons, rows_cons, h il (mem_cons_self ..),
      ih fun il' h' => h il' (mem_cons_of_mem _ h')]

variable {s : Session}

theorem Fits.span_lt (h : s.Fits sh) {il : ℕ} (hil : il < sh.nLayer) {span : Tensor × ℕ}
    (hspan : span ∈ s.spans sh il) : span.2 < sh.rowCount s.caps il span.1 :=
  Shape.spans_lt (h.nComp_le il hil) (h.nIndexComp_le il hil) hspan

theorem Fits.writeTensors (h : s.Fits sh) (hils : ∀ il ∈ ils, il < sh.nLayer) :
    s.writeTensors sh ils = .ok (s.rows sh ils) := by
  unfold Session.writeTensors
  rw [if_pos]
  · rfl
  · rw [all_eq_true]
    intro slot hslot
    obtain ⟨il, hil, hslot⟩ := mem_flatMap.mp hslot
    obtain ⟨span, hspan, rfl⟩ := mem_map.mp hslot
    simpa using h.span_lt (hils il hil) hspan

theorem Fits.content_rows (h : s.Fits sh) {il : ℕ} (hil : il < sh.nLayer) :
    List.Forall₂ (fun span row => row.length = sh.rowBytes il span.1 ∧
      sh.spell span.1 (sh.store span.1 row) = row) (s.spans sh il) (s.content sh il).rows := by
  unfold content
  rw [forall₂_map_right_iff, forall₂_same]
  intro span hspan
  have hlt := h.span_lt hil hspan
  refine ⟨h.spell_length il hil span.1 span.2 hlt, ?_⟩
  rw [h.store_spell il hil span.1 span.2 hlt]
  rfl

end Session

section Restore

variable {s : Session}

theorem restore_rows (sh : Shape) (s : Session) (slot slot' : Slot) (row : Bytes) :
    ((s.restore sh slot.1 slot.2 row).layer slot'.1).rows slot'.2 =
      if slot' = slot then sh.store slot.2.1 row else (s.layer slot'.1).rows slot'.2 := by
  obtain ⟨il, span⟩ := slot
  obtain ⟨il', span'⟩ := slot'
  simp only [Session.restore, Layer.restore, Prod.mk.injEq]
  by_cases hil : il' = il
  · subst hil
    by_cases hspan : span' = span
    · subst hspan
      simp
    · simp [hspan]
  · simp [hil]

variable {slots : List Slot}

theorem restoreBytes_of_notMem {slot : Slot} (h : slot ∉ slots) (b : Bytes) (s : Session) :
    (s.restoreBytes sh slots b).spell sh slot = s.spell sh slot := by
  induction slots generalizing b s with
  | nil => rfl
  | cons slot' slots ih =>
    obtain ⟨hne, hnot⟩ : slot ≠ slot' ∧ slot ∉ slots := by simpa using h
    rw [Session.restoreBytes, ih hnot]
    unfold Session.spell Layer.spell
    rw [restore_rows, if_neg hne]

theorem restoreBytes_append (slots slots' : List Slot) (b b' : Bytes) (s : Session)
    (h : b.length = sizeOf sh slots) :
    s.restoreBytes sh (slots ++ slots') (b ++ b') =
      (s.restoreBytes sh slots b).restoreBytes sh slots' b' := by
  induction slots generalizing b s with
  | nil =>
    obtain rfl := length_eq_zero_iff.mp h
    rfl
  | cons slot slots ih =>
    rw [sizeOf_cons] at h
    simp only [cons_append, Session.restoreBytes]
    rw [take_append_of_le_length (by omega), drop_append_of_le_length (by omega)]
    exact ih _ _ (by rw [length_drop]; omega)

theorem restoreBytes_spell {rows : List Bytes} (hnodup : slots.Nodup)
    (h : List.Forall₂ (fun slot row => row.length = slotBytes sh slot ∧
      sh.spell slot.2.1 (sh.store slot.2.1 row) = row) slots rows) (s : Session) :
    slots.map ((s.restoreBytes sh slots rows.flatten).spell sh) = rows := by
  induction h generalizing s with
  | nil => rfl
  | @cons slot row slots rows hrow _ ih =>
    obtain ⟨hnot, hnodup⟩ := nodup_cons.mp hnodup
    rw [flatten_cons, Session.restoreBytes, map_cons,
      take_left' hrow.1, drop_left' hrow.1, ih hnodup, restoreBytes_of_notMem hnot]
    congr 1
    unfold Session.spell Layer.spell
    rw [restore_rows, if_pos rfl]
    exact hrow.2

theorem sizeOf_of_forall₂ {rows : List Bytes}
    (h : List.Forall₂ (fun slot row => row.length = slotBytes sh slot ∧
      sh.spell slot.2.1 (sh.store slot.2.1 row) = row) slots rows) :
    rows.flatten.length = sizeOf sh slots := by
  induction h with
  | nil => rfl
  | cons hrow _ ih => rw [flatten_cons, length_append, sizeOf_cons, hrow.1, ih]

/-- The rows of a layer stand in the same tensors in rings of any size. -/
theorem spans_fst (rawCap rawCap' tokens rawLive ratio nComp nIndexComp : ℕ) :
    (Shape.spans rawCap tokens rawLive ratio nComp nIndexComp).map Prod.fst =
      (Shape.spans rawCap' tokens rawLive ratio nComp nIndexComp).map Prod.fst := by
  unfold Shape.spans
  simp only [map_append, map_map]
  rfl

/-- A layer's rows as a session keeps them, its ring and counts being those of the target. -/
def Session.spansIn (sh : Shape) (s : Session) (rawCap il : ℕ) : List (Tensor × ℕ) :=
  Shape.spans rawCap s.checkpoint.length (s.rawLive sh) (sh.compressRatio il)
    (s.layer il).nComp (s.layer il).nIndexComp

def Session.slotsIn (sh : Shape) (s : Session) (rawCap : ℕ) (ils : List ℕ) : List Slot :=
  ils.flatMap fun il => (s.spansIn sh rawCap il).map fun span => (il, span)

theorem Session.slotsIn_eq (s : Session) (rawCap : ℕ) (ils : List ℕ) :
    s.slotsIn sh rawCap ils = rowSlots sh rawCap s.checkpoint.length (s.rawLive sh) ils
      (ils.map fun il => (s.layer il).nComp) (ils.map fun il => (s.layer il).nIndexComp) := by
  induction ils with
  | nil => rfl
  | cons il ils ih =>
    rw [map_cons, map_cons, rowSlots, ← ih]
    rfl

variable (hs : s.Fits sh) {rawCap il : ℕ}
include hs

theorem Session.Fits.rows_in (hil : il < sh.nLayer) :
    List.Forall₂ (fun slot row => row.length = slotBytes sh slot ∧
        sh.spell slot.2.1 (sh.store slot.2.1 row) = row)
      ((s.spansIn sh rawCap il).map fun span => (il, span)) (s.content sh il).rows := by
  rw [forall₂_map_left_iff]
  have h := hs.content_rows hil
  have hfst := spans_fst rawCap (sh.rawCap s.caps) s.checkpoint.length (s.rawLive sh)
    (sh.compressRatio il) (s.layer il).nComp (s.layer il).nIndexComp
  let fits (t : Tensor) (row : Bytes) : Prop :=
    row.length = sh.rowBytes il t ∧ sh.spell t (sh.store t row) = row
  have hmap (spans : List (Tensor × ℕ)) :
      List.Forall₂ fits (spans.map Prod.fst) (s.content sh il).rows ↔
        List.Forall₂ (fun span row => fits span.1 row) spans (s.content sh il).rows :=
    forall₂_map_left_iff
  refine (hmap _).mp ?_
  rw [Session.spansIn, hfst]
  exact (hmap _).mpr h

theorem Session.Fits.layer_length (rawCap : ℕ) (hil : il < sh.nLayer) :
    (s.content sh il).rows.flatten.length =
      sizeOf sh ((s.spansIn sh rawCap il).map fun span => (il, span)) :=
  sizeOf_of_forall₂ (hs.rows_in hil)

/-- The rows of some layers take what their slots take in a ring of any size. -/
theorem Session.Fits.rows_length (rawCap : ℕ) (hils : ∀ il ∈ ils, il < sh.nLayer) :
    (s.rows sh ils).length = sizeOf sh (s.slotsIn sh rawCap ils) := by
  induction ils with
  | nil => rfl
  | cons il ils ih =>
    have htail := ih fun il' h' => hils il' (mem_cons_of_mem _ h')
    rw [rows_cons, length_append, htail, hs.layer_length rawCap (hils il (mem_cons_self ..))]
    exact (sizeOf_append ..).symm

theorem Session.Fits.restoreBytes_layers (hils : ∀ il ∈ ils, il < sh.nLayer)
    (hnodup : ils.Nodup) (hcap : s.rawLive sh ≤ rawCap) (t : Session) (hmem : il ∈ ils) :
    (s.spansIn sh rawCap il).map
        (((t.restoreBytes sh (s.slotsIn sh rawCap ils) (s.rows sh ils)).layer il).spell sh) =
      (s.content sh il).rows := by
  induction ils generalizing t with
  | nil => cases hmem
  | cons il' ils ih =>
    obtain ⟨hnot, hnodup⟩ := nodup_cons.mp hnodup
    have hil' := hils il' (mem_cons_self ..)
    have hlen := hs.layer_length rawCap hil'
    have hils' : ∀ il ∈ ils, il < sh.nLayer := fun i h => hils i (mem_cons_of_mem _ h)
    rw [rows_cons, show s.slotsIn sh rawCap (il' :: ils) =
      (s.spansIn sh rawCap il').map (fun span => (il', span)) ++ s.slotsIn sh rawCap ils from rfl,
      restoreBytes_append _ _ _ _ _ hlen]
    rcases mem_cons.mp hmem with rfl | hmem
    · have hspans : ((s.spansIn sh rawCap il).map fun span => (il, span)).Nodup :=
        (Shape.spans_nodup hcap).map fun a b hab => (Prod.mk.inj hab).2
      have hhead := restoreBytes_spell hspans (hs.rows_in hil') t
      rw [map_map] at hhead
      refine Eq.trans ?_ hhead
      generalize t.restoreBytes sh _ (s.content sh il).rows.flatten = t'
      refine map_congr_left fun span _ => ?_
      have hout : (il, span) ∉ s.slotsIn sh rawCap ils := by
        intro hin
        obtain ⟨i, hi, hin⟩ := mem_flatMap.mp hin
        obtain ⟨span', -, heq⟩ := mem_map.mp hin
        obtain rfl : i = il := congrArg Prod.fst heq
        exact hnot hi
      exact restoreBytes_of_notMem hout (s.rows sh ils) t'
    · exact ih hils' hnodup _ hmem

end Restore

section Slice

variable {s : Session} {layerStart layerEnd il : ℕ}

theorem mem_layers : il ∈ layers layerStart layerEnd ↔ layerStart ≤ il ∧ il ≤ layerEnd := by
  unfold layers
  rw [mem_range'_1]
  omega

theorem layers_lt (a : ℕ) {n : ℕ} (h : layerEnd < n) : ∀ il ∈ layers a layerEnd, il < n :=
  fun _ hil => lt_of_le_of_lt (mem_layers.mp hil).2 h

/-- What the payload of a slice says about its rows. -/
def Session.shard (sh : Shape) (s : Session) (layerStart layerEnd : ℕ) : Shard where
  layerStart := layerStart
  tokens := s.checkpoint.length
  rawLive := s.rawLive sh
  nComp := (layers layerStart layerEnd).map fun il => (s.layer il).nComp
  nIndexComp := (layers layerStart layerEnd).map fun il => (s.layer il).nIndexComp

theorem Session.shard_slots (rawCap : ℕ) :
    (s.shard sh layerStart layerEnd).slots sh rawCap =
      s.slotsIn sh rawCap (layers layerStart layerEnd) := by
  rw [slotsIn_eq]
  simp [Shard.slots, Session.shard, layers]

private theorem getD_layers (h : il ∈ layers layerStart layerEnd) (f : ℕ → ℕ) :
    ((layers layerStart layerEnd).map f).getD (il - layerStart) 0 = f il := by
  obtain ⟨ha, hb⟩ := mem_layers.mp h
  have hlt : il - layerStart < layerEnd + 1 - layerStart := by omega
  have hsum : layerStart + (il - layerStart) = il := by omega
  simp [layers, getD_eq_getElem?_getD, getElem?_range' hlt, hsum]

theorem shard_range (sh : Shape) (s : Session) (h : il ∈ layers layerStart layerEnd) :
    (s.shard sh layerStart layerEnd).layerStart ≤ il ∧
      il < (s.shard sh layerStart layerEnd).layerStart +
        (s.shard sh layerStart layerEnd).nComp.length := by
  have hil := mem_layers.mp h
  simp only [Session.shard, length_map, layers, length_range']
  omega

/-- A session that restores a slice holds what the slice was written from. -/
theorem Session.Fits.restored_content (hs : s.Fits sh) {t : Session}
    (hwindow : sh.rawWindow s.caps = sh.rawWindow t.caps) (hend : layerEnd < sh.nLayer)
    (hil : il ∈ layers layerStart layerEnd) :
    (Restore.restored sh s.checkpoint (s.shard sh layerStart layerEnd)
      (s.rows sh (layers layerStart layerEnd)) t).content sh il = s.content sh il := by
  set r := Restore.restored sh s.checkpoint (s.shard sh layerStart layerEnd)
    (s.rows sh (layers layerStart layerEnd)) t with hr
  have hcaps : r.caps = t.caps := restoreBytes_caps _ _ _
  have hcheck : r.checkpoint = s.checkpoint := rfl
  have hlive : r.rawLive sh = s.rawLive sh := by rw [rawLive_eq, rawLive_eq, hcaps, hcheck, hwindow]
  have hrange := shard_range sh s hil
  have hlayer : r.layer il = { ((Restore.invalidate t).restoreBytes sh
        (s.slotsIn sh (sh.rawCap t.caps) (layers layerStart layerEnd))
        (s.rows sh (layers layerStart layerEnd))).layer il with
      nComp := (s.layer il).nComp
      nIndexComp := (s.layer il).nIndexComp } := by
    rw [hr, Restore.restored, Restore.commit_layer hrange, shard_slots]
    simp only [Session.shard, getD_layers hil]
  have hspans : r.spans sh il = s.spansIn sh (sh.rawCap t.caps) il := by
    rw [Session.spans, hlive, hcaps, hlayer]
    rfl
  have hnode := layers_lt layerStart hend
  have hcap : s.rawLive sh ≤ sh.rawCap t.caps := by
    rw [← hlive, ← hcaps]
    exact rawLive_le_rawCap sh r
  have hrows := hs.restoreBytes_layers hnode nodup_range' hcap (Restore.invalidate t) hil
  have hrowsEq : (r.spans sh il).map ((r.layer il).spell sh) = (s.content sh il).rows := by
    rw [hspans, ← hrows, hlayer]
    rfl
  have hcontent : r.content sh il =
      ⟨(r.layer il).nComp, (r.layer il).nIndexComp, (r.spans sh il).map ((r.layer il).spell sh)⟩ :=
    rfl
  rw [hcontent, hrowsEq, hlayer]
  rfl

end Slice

section Fits

variable {s t : Session}

/-- The rows of a session survive the way through a payload. -/
def Session.RowsFit (sh : Shape) (s : Session) : Prop :=
  ∀ il < sh.nLayer, ∀ t r, r < sh.rowCount s.caps il t →
    ((s.layer il).spell sh (t, r)).length = sh.rowBytes il t ∧
      sh.store t ((s.layer il).spell sh (t, r)) = (s.layer il).rows (t, r)

theorem Session.Fits.rowsFit (h : s.Fits sh) : s.RowsFit sh :=
  fun il hil t r hr => ⟨h.spell_length il hil t r hr, h.store_spell il hil t r hr⟩

theorem restore_rowsFit (hs : s.RowsFit sh) {slot : Slot} {row : Bytes}
    (hrow : row.length = slotBytes sh slot ∧ sh.spell slot.2.1 (sh.store slot.2.1 row) = row) :
    (s.restore sh slot.1 slot.2 row).RowsFit sh := by
  intro il hil t r hr
  have hread := restore_rows sh s slot (il, (t, r)) row
  unfold Layer.spell
  by_cases heq : (il, (t, r)) = slot
  · subst heq
    rw [if_pos rfl] at hread
    rw [hread, hrow.2]
    exact ⟨hrow.1, rfl⟩
  · rw [if_neg heq] at hread
    rw [hread]
    exact hs il hil t r hr

theorem restoreBytes_rowsFit {slots : List Slot} {rows : List Bytes} (hs : s.RowsFit sh)
    (h : List.Forall₂ (fun slot row => row.length = slotBytes sh slot ∧
      sh.spell slot.2.1 (sh.store slot.2.1 row) = row) slots rows) :
    (s.restoreBytes sh slots rows.flatten).RowsFit sh := by
  induction h generalizing s with
  | nil => exact hs
  | cons hrow _ ih =>
    rw [flatten_cons, Session.restoreBytes, take_left' hrow.1, drop_left' hrow.1]
    exact ih (restore_rowsFit hs hrow)

theorem Session.Fits.rows_in_all (hs : s.Fits sh) (rawCap : ℕ)
    (hils : ∀ il ∈ ils, il < sh.nLayer) :
    List.Forall₂ (fun slot row => row.length = slotBytes sh slot ∧
        sh.spell slot.2.1 (sh.store slot.2.1 row) = row)
      (s.slotsIn sh rawCap ils) (ils.flatMap fun il => (s.content sh il).rows) := by
  induction ils with
  | nil => exact .nil
  | cons il ils ih =>
    exact rel_append (hs.rows_in (hils il (mem_cons_self ..)))
      (ih fun il' h' => hils il' (mem_cons_of_mem _ h'))

theorem Session.rows_eq_flatten (s : Session) (ils : List ℕ) :
    s.rows sh ils = (ils.flatMap fun il => (s.content sh il).rows).flatten := by
  induction ils with
  | nil => rfl
  | cons il ils ih => rw [rows_cons, flatMap_cons, flatten_append, ih]

/-- A session that restores a slice of a session within its capacities stays within its own. -/
theorem Session.Fits.restored_fits (hs : s.Fits sh) (ht : t.Fits sh) {layerStart layerEnd : ℕ}
    (hend : layerEnd < sh.nLayer) (hctx : s.caps.ctxSize ≤ t.caps.ctxSize) :
    (Restore.restored sh s.checkpoint (s.shard sh layerStart layerEnd)
      (s.rows sh (layers layerStart layerEnd)) t).Fits sh := by
  set r := Restore.restored sh s.checkpoint (s.shard sh layerStart layerEnd)
    (s.rows sh (layers layerStart layerEnd)) t with hr
  set u := (Restore.invalidate t).restoreBytes sh (s.slotsIn sh (sh.rawCap t.caps)
    (layers layerStart layerEnd)) (s.rows sh (layers layerStart layerEnd)) with hu
  have hru : r = Restore.commit s.checkpoint (s.shard sh layerStart layerEnd) u := by
    rw [hr, Restore.restored, Session.shard_slots]
  have hcaps : r.caps = t.caps := restoreBytes_caps _ _ _
  have hlogits : r.logits = t.logits := restoreBytes_logits _ _ _
  have hnode := layers_lt layerStart hend
  have hrows : u.RowsFit sh := by
    rw [hu, rows_eq_flatten]
    exact restoreBytes_rowsFit (s := Restore.invalidate t) ht.rowsFit
      (hs.rows_in_all (sh.rawCap t.caps) hnode)
  have hucaps : u.caps = t.caps := restoreBytes_caps _ _ _
  have hucounts (il : ℕ) : (u.layer il).nComp = (t.layer il).nComp ∧
      (u.layer il).nIndexComp = (t.layer il).nIndexComp := restoreBytes_counts _ _ _ il
  have hspell (il : ℕ) (span : Tensor × ℕ) :
      (r.layer il).rows span = (u.layer il).rows span := by rw [hru, Restore.commit_rows]
  have hcount (il : ℕ) (hil : il < sh.nLayer) :
      (r.layer il).nComp ≤ sh.layerCompCap t.caps il ∧
        (r.layer il).nIndexComp ≤ sh.layerCompCap t.caps il := by
    have hmono := sh.layerCompCap_mono hctx il
    rw [hru]
    by_cases hin : il ∈ layers layerStart layerEnd
    · have hrange := shard_range sh s hin
      rw [Restore.commit_layer hrange]
      simp only [Session.shard, getD_layers hin]
      exact ⟨(hs.nComp_le il hil).trans hmono, (hs.nIndexComp_le il hil).trans hmono⟩
    · have hout : ¬ ((s.shard sh layerStart layerEnd).layerStart ≤ il ∧
          il < (s.shard sh layerStart layerEnd).layerStart +
            (s.shard sh layerStart layerEnd).nComp.length) := by
        rw [mem_layers] at hin
        simp only [Session.shard, length_map, layers, length_range']
        omega
      have hlayer : (Restore.commit s.checkpoint (s.shard sh layerStart layerEnd) u).layer il =
          u.layer il := if_neg hout
      rw [hlayer, (hucounts il).1, (hucounts il).2]
      exact ⟨ht.nComp_le il hil, ht.nIndexComp_le il hil⟩
  constructor
  · intro il hil tensor row hrow
    unfold Layer.spell
    rw [hspell]
    exact (hrows il hil tensor row (by rwa [hucaps, ← hcaps])).1
  · intro il hil tensor row hrow
    unfold Layer.spell
    rw [hspell]
    exact (hrows il hil tensor row (by rwa [hucaps, ← hcaps])).2
  · intro il hil
    rw [hcaps]
    exact (hcount il hil).1
  · intro il hil
    rw [hcaps]
    exact (hcount il hil).2
  · rw [hcaps]
    exact hs.checkpoint_le.trans hctx
  · exact hs.token_lt
  · rw [hlogits]
    exact ht.logits_length

end Fits

section Blank

/-- The capacities of a session of `2 ^ n` tokens. -/
def Caps.sized (n : Fin 31) : Caps where
  ctxSize := 2 ^ n.val
  prefillCap := 512
  rawCapWanted := 128
  ctxSize_pos := Nat.two_pow_pos _
  ctxSize_lt := Nat.pow_lt_pow_right (by decide) n.isLt
  prefillCap_lt := by decide

/-- A session whose rows are all zero. -/
def Session.blank (sh : Shape) (c : Caps) (tokens : List ℕ) : Session where
  caps := c
  layer il := ⟨fun span => replicate (sh.rowBytes il span.1) 0, 0, 0⟩
  checkpoint := tokens
  checkpointValid := true
  logits := replicate (4 * sh.nVocab) 0
  mtpDraftValid := false
  mtpNRaw := 0

theorem Session.blank_fits {c : Caps} {tokens : List ℕ} (hlen : tokens.length ≤ c.ctxSize)
    (hlt : ∀ t ∈ tokens, t < Shape.flash.nVocab) :
    (Session.blank .flash c tokens).Fits .flash where
  spell_length il _ t r _ := by cases t <;> exact length_replicate
  store_spell il _ t r _ := by cases t <;> rfl
  nComp_le _ _ := Nat.zero_le _
  nIndexComp_le _ _ := Nat.zero_le _
  checkpoint_le := hlen
  token_lt := hlt
  logits_length := length_replicate

theorem Session.blank_content {c d : Caps} {tokens : List ℕ} {il : ℕ}
    (hwindow : Shape.flash.rawWindow c = Shape.flash.rawWindow d) :
    (Session.blank .flash c tokens).content .flash il =
      (Session.blank .flash d tokens).content .flash il := by
  have hlive : (Session.blank .flash c tokens).rawLive .flash =
      (Session.blank .flash d tokens).rawLive .flash := by
    rw [rawLive_eq, rawLive_eq]
    simp only [blank, hwindow]
  have hspell (e : Caps) (span : Tensor × ℕ) :
      ((Session.blank .flash e tokens).layer il).spell .flash span =
        replicate (Shape.flash.rowBytes il span.1) 0 := by
    obtain ⟨t, r⟩ := span
    cases t <;> rfl
  have hrows (e : Caps) : ((Session.blank .flash e tokens).spans .flash il).map
      (((Session.blank .flash e tokens).layer il).spell .flash) =
        (((Session.blank .flash e tokens).spans .flash il).map Prod.fst).map fun t =>
          replicate (Shape.flash.rowBytes il t) 0 := by
    rw [map_map]
    exact map_congr_left fun span _ => hspell e span
  have htensors : ((Session.blank .flash c tokens).spans .flash il).map Prod.fst =
      ((Session.blank .flash d tokens).spans .flash il).map Prod.fst := by
    unfold spans Shape.spans
    rw [hlive]
    split_ifs <;> simp [blank, Function.comp_def]
  unfold content
  rw [hrows, hrows, htensors]
  rfl

end Blank

end Ds4Studio.Payload
