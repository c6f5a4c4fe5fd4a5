import Ds4Studio.Dist.Accepts
import Ds4Studio.Payload.RoundTrip

/-!
Saving over a route. The shards of hops that hold the layers of one session carry that
session's rows and counts behind a header with the hop's own capacities; put together
they are the payload of the session on a single node.
-/

namespace Ds4Studio.Dist

open List LittleEndian Option Payload Reader Stateful

variable {sh : Shape}

/-- The header of a session's payloads. -/
def Layout.of (sh : Shape) (s : Session) : Layout where
  ctx := s.caps.ctxSize
  prefillCap := s.caps.prefillCap
  rawCap := sh.rawCap s.caps
  rawWindow := sh.rawWindow s.caps
  compCap := sh.compCap s.caps
  tokenCount := s.checkpoint.length
  nLayers := sh.nLayer
  headDim := sh.headDim
  indexerHeadDim := sh.indexerHeadDim
  vocab := sh.nVocab
  rawLive := s.rawLive sh

theorem Layout.of_sessionHeader (s : Session) : (Layout.of sh s).sessionHeader = s.header sh := rfl

theorem Layout.of_layerHeader (s : Session) (layerStart layerEnd : ℕ) :
    (Layout.of sh s).layerHeader layerStart layerEnd = s.layerHeader sh layerStart layerEnd := rfl

theorem Layout.of_small {s : Session} (hs : s.Fits sh) : (Layout.of sh s).Small := by
  have hctx := s.caps.ctxSize_lt
  have hcheck := hs.checkpoint_le
  have hcap := sh.rawCap_le_ctxSize s.caps
  have hwindow := sh.rawWindow_le_ctxSize s.caps
  have hlive := s.rawLive_le_rawCap sh
  have hlayer := sh.nLayer_lt
  have hhead := sh.headDim_lt
  have hindex := sh.indexerHeadDim_lt
  have hvocab := sh.nVocab_lt
  simp only [Layout.Small, Layout.sessionHeader, Layout.of, forall_mem_cons]
  exact ⟨by decide, by decide, by omega, s.caps.prefillCap_lt, by omega, by omega,
    sh.compCap_lt s.caps, by omega, by omega, by omega, by omega, by omega, by omega, by simp⟩

theorem Layout.of_rawLiveValid (s : Session) : (Layout.of sh s).rawLiveValid = true := by
  have hwindow := sh.rawWindow_pos s.caps
  have hcap := sh.rawCap_pos s.caps
  have hlive := s.rawLive_le_rawCap sh
  have heq := s.rawLive_eq sh
  simp only [Layout.rawLiveValid, Layout.of, Bool.and_eq_true, bne_iff_ne, beq_iff_eq]
  exact ⟨⟨⟨by omega, by omega⟩, heq.trans (ite_lt_eq_min _ _).symm⟩, decide_eq_true hlive⟩

/-- The hop's session holds the layers of the node's session that it serves. -/
structure HopHolds (sh : Shape) (node s : Session) (range : ℕ × ℕ) : Prop where
  fits : s.Fits sh
  checkpoint : s.checkpoint = node.checkpoint
  checkpointValid : s.checkpointValid = true
  content : ∀ il ∈ layers range.1 range.2, s.content sh il = node.content sh il

/-- What a shard of the node's layers says behind its header. -/
def nodeBody (sh : Shape) (node : Session) (range : ℕ × ℕ) : Bytes :=
  node.counts (layers range.1 range.2) ++ node.rows sh (layers range.1 range.2)

namespace HopHolds

variable {node s : Session} {range : ℕ × ℕ} (h : HopHolds sh node s range)
include h

theorem nComp_eq : (layers range.1 range.2).map (fun il => (s.layer il).nComp) =
    (layers range.1 range.2).map fun il => (node.layer il).nComp :=
  map_congr_left fun il hil => congrArg Content.nComp (h.content il hil)

theorem nIndexComp_eq : (layers range.1 range.2).map (fun il => (s.layer il).nIndexComp) =
    (layers range.1 range.2).map fun il => (node.layer il).nIndexComp :=
  map_congr_left fun il hil => congrArg Content.nIndexComp (h.content il hil)

/-- A hop writes its own header in front of the node's counts and rows. -/
theorem saveLayerPayload (hle : range.1 ≤ range.2) (hlt : range.2 < sh.nLayer) :
    s.saveLayerPayload sh range.1 range.2 =
      .ok (words ((Layout.of sh s).layerHeader range.1 range.2) ++ nodeBody sh node range) := by
  have hvalid : rangeValid sh range.1 range.2 = true := by simp [rangeValid, hle, hlt]
  have hlayers := layers_lt range.1 hlt
  have hcounts : s.counts (layers range.1 range.2) = node.counts (layers range.1 range.2) := by
    unfold Session.counts
    rw [h.nComp_eq, h.nIndexComp_eq]
  unfold Session.saveLayerPayload nodeBody
  rw [h.checkpointValid, hvalid, h.fits.writeTensors hlayers,
    Session.rows_congr h.content, hcounts, Layout.of_layerHeader, ← append_assoc]
  rfl

end HopHolds

section Sizes

theorem stateBytes_le {dim ratio : ℕ} (hd : dim < 2 ^ 16) (hr : ratio ≤ 128) :
    Shape.stateBytes dim ratio ≤ 2 ^ 27 := by
  have hcoff : (if ratio = 4 then 2 else 1) ≤ 2 := by split_ifs <;> omega
  calc (if ratio = 4 then 2 else 1) * dim * (if ratio = 4 then 2 else 1) * ratio * 4
      ≤ 2 * 2 ^ 16 * 2 * 128 * 4 := by gcongr
    _ ≤ 2 ^ 27 := by decide

theorem layerTensorBytes_le (sh : Shape) (il : ℕ) {rawLive n m : ℕ} (hl : rawLive ≤ 2 ^ 32) (hn : n ≤ 2 ^ 32)
    (hm : m ≤ 2 ^ 32) : layerTensorBytes sh rawLive il n m ≤ 2 ^ 53 := by
  have hhead := sh.headDim_lt
  have hindex := sh.indexerHeadDim_lt
  have hratio := sh.compressRatio_le il
  have hrow {k dim : ℕ} (hk : k ≤ 2 ^ 32) (hd : dim < 2 ^ 16) : k * dim * 4 ≤ 2 ^ 50 :=
    calc k * dim * 4 ≤ 2 ^ 32 * 2 ^ 16 * 4 := by gcongr
      _ = 2 ^ 50 := by decide
  have h1 := hrow hl hhead
  have h2 := hrow hn hhead
  have h3 := hrow hm hindex
  have h4 := stateBytes_le hhead hratio
  have h5 := stateBytes_le hindex hratio
  unfold layerTensorBytes
  dsimp only
  split_ifs <;> omega

variable {l : Layout} (hd : l.headDim = sh.headDim) (hi : l.indexerHeadDim = sh.indexerHeadDim)
include hd hi

/-- The size formula of the shards is the number of bytes of their rows, checked. -/
theorem kvTensorBytes_eq (rawCap : ℕ) (ils ns ms : List ℕ) :
    kvTensorBytes sh l ils ns ms =
      checked (sizeOf sh (rowSlots sh rawCap l.tokenCount l.rawLive ils ns ms)) := by
  fun_induction kvTensorBytes sh l ils ns ms with
  | case1 il ils n ns m ms ih =>
    rw [kvLayerTensorBytes_eq hd hi, ih, rowSlots, sizeOf_append, sizeOf_spans]
    exact checked_add_last _ _
  | case2 ils ns ms hnot =>
    unfold rowSlots
    split
    · exact absurd rfl (hnot _ _ _ _ _ _ rfl rfl)
    · rfl

omit hd hi in
theorem sizeOf_rowSlots_le (sh : Shape) (rawCap tokens : ℕ) {rawLive : ℕ} (ils : List ℕ)
    {ns ms : List ℕ}
    (hl : rawLive ≤ 2 ^ 32) (hn : ∀ n ∈ ns, n ≤ 2 ^ 32) (hm : ∀ m ∈ ms, m ≤ 2 ^ 32) :
    sizeOf sh (rowSlots sh rawCap tokens rawLive ils ns ms) ≤ 2 ^ 53 * ils.length := by
  fun_induction rowSlots sh rawCap tokens rawLive ils ns ms with
  | case1 il ils n ns m ms ih =>
    have htail := ih (fun k hk => hn k (mem_cons_of_mem _ hk))
      fun k hk => hm k (mem_cons_of_mem _ hk)
    have hhead := layerTensorBytes_le sh il hl (hn n (mem_cons_self ..)) (hm m (mem_cons_self ..))
    rw [sizeOf_append, sizeOf_spans, length_cons]
    omega
  | case2 ils ns ms hnot => exact Nat.zero_le _

omit hd hi in
theorem sliceBytes_small {node : Session} (hs : node.Fits sh) {ils : List ℕ}
    (hils : ∀ il ∈ ils, il < sh.nLayer) :
    sliceBytes sh (Layout.of sh node) ils (ils.map fun il => (node.layer il).nComp)
        (ils.map fun il => (node.layer il).nIndexComp) =
      some (sizeOf sh (rowSlots sh (sh.rawCap node.caps) node.checkpoint.length (node.rawLive sh)
        ils (ils.map fun il => (node.layer il).nComp)
        (ils.map fun il => (node.layer il).nIndexComp))) := by
  induction ils with
  | nil => rfl
  | cons il ils ih =>
    have hil := hils il (mem_cons_self ..)
    have hcap := sh.rawCap_le_ctxSize node.caps
    have hctx := node.caps.ctxSize_lt
    have hlive := node.rawLive_le_rawCap sh
    have hcomp := sh.compCap_lt node.caps
    have hlayer := sh.layerCompCap_le_compCap node.caps hil
    have hn := hs.nComp_le il hil
    have hm := hs.nIndexComp_le il hil
    have hsize := layerTensorBytes_le sh il (show node.rawLive sh ≤ 2 ^ 32 by omega)
      (show (node.layer il).nComp ≤ 2 ^ 32 by omega)
      (show (node.layer il).nIndexComp ≤ 2 ^ 32 by omega)
    rw [map_cons, map_cons, sliceBytes, rowSlots, sizeOf_append, sizeOf_spans,
      kvLayerTensorBytes_eq rfl rfl, ih fun i hi => hils i (mem_cons_of_mem _ hi)]
    have hsmall : checked (layerTensorBytes sh (Layout.of sh node).rawLive il
        (node.layer il).nComp (node.layer il).nIndexComp) = some (layerTensorBytes sh
          (node.rawLive sh) il (node.layer il).nComp (node.layer il).nIndexComp) :=
      if_pos (lt_of_le_of_lt hsize (by decide))
    rw [hsmall]
    rfl

end Sizes

section Parse

variable {node s : Session} {range : ℕ × ℕ} {known : Option Layout}

/-- What the parser of a shard of the node's layers returns. -/
def parsedNode (sh : Shape) (node : Session) (l : Layout) (range : ℕ × ℕ) : Parsed where
  layout := l
  nComp := (layers range.1 range.2).map fun il => (node.layer il).nComp
  nIndexComp := (layers range.1 range.2).map fun il => (node.layer il).nIndexComp
  tensors := node.rows sh (layers range.1 range.2)

private theorem counts_fit {ils : List ℕ} (hils : ∀ il ∈ ils, il < sh.nLayer)
    (f : ℕ → ℕ) (hf : ∀ il < sh.nLayer, f il ≤ sh.layerCompCap s.caps il) :
    List.Forall₂ (fun (ok : ℕ → Bool) n => ok n = true ∧ n < 2 ^ 32)
      (ils.map fun _ n => decide (n ≤ sh.compCap s.caps)) (ils.map f) := by
  rw [forall₂_map_left_iff, forall₂_map_right_iff, forall₂_same]
  intro il hil
  have hle := (hf il (hils il hil)).trans (sh.layerCompCap_le_compCap s.caps (hils il hil))
  exact ⟨decide_eq_true hle, lt_of_le_of_lt hle (sh.compCap_lt s.caps)⟩

theorem HopHolds.size (h : HopHolds sh node s range) (hle : range.1 ≤ range.2)
    (hlt : range.2 < sh.nLayer) :
    kvTensorBytes sh (Layout.of sh s) (layers range.1 range.2)
        ((layers range.1 range.2).map fun il => (node.layer il).nComp)
        ((layers range.1 range.2).map fun il => (node.layer il).nIndexComp) =
      some (node.rows sh (layers range.1 range.2)).length := by
  have hlayers := layers_lt range.1 hlt
  have hlayer := sh.nLayer_lt
  have hcap := sh.rawCap_le_ctxSize s.caps
  have hctx := s.caps.ctxSize_lt
  have hlive := s.rawLive_le_rawCap sh
  have hcount {f : ℕ → ℕ} (hf : ∀ il < sh.nLayer, f il ≤ sh.layerCompCap s.caps il) :
      ∀ n ∈ (layers range.1 range.2).map f, n ≤ 2 ^ 32 := by
    intro n hn
    obtain ⟨il, hil, rfl⟩ := mem_map.mp hn
    have hle := (hf il (hlayers il hil)).trans (sh.layerCompCap_le_compCap s.caps (hlayers il hil))
    exact hle.trans (sh.compCap_lt s.caps).le
  have hsize := sizeOf_rowSlots_le sh (sh.rawCap s.caps) s.checkpoint.length
    (layers range.1 range.2) (show s.rawLive sh ≤ 2 ^ 32 by omega) (hcount h.fits.nComp_le)
    (hcount h.fits.nIndexComp_le)
  rw [layers_length] at hsize
  rw [← h.nComp_eq, ← h.nIndexComp_eq, ← Session.rows_congr h.content,
    h.fits.rows_length (sh.rawCap s.caps) hlayers, Session.slotsIn_eq,
    kvTensorBytes_eq rfl rfl (sh.rawCap s.caps)]
  exact if_pos (by simp only [Layout.of]; omega)

/-- A shard that a hop has written is refused only for a layout of its own. -/
theorem parse_saved (h : HopHolds sh node s range) (hle : range.1 ≤ range.2)
    (hlt : range.2 < sh.nLayer) (Q : Parsed → Prop) :
    Ends (parseLayerPayload sh known range.1 range.2) (Input.ofBytes
        (words ((Layout.of sh s).layerHeader range.1 range.2) ++ nodeBody sh node range))
      (fun p _ => Q p) ↔
      (known.any fun l => !l.layoutMatches (Layout.of sh s)) = false ∧
        Q (parsedNode sh node (known.getD (Layout.of sh s)) range) := by
  set l := Layout.of sh s with hl
  set nComp := (layers range.1 range.2).map fun il => (node.layer il).nComp with hnComp
  set nIndexComp := (layers range.1 range.2).map fun il => (node.layer il).nIndexComp with hnIndex
  set rows := node.rows sh (layers range.1 range.2) with hrows
  have hlayer := sh.nLayer_lt
  have hlayers := layers_lt range.1 hlt
  have hheader : Reads (readWords "distributed" 14) (words (l.layerHeader range.1 range.2))
      (l.layerHeader range.1 range.2) :=
    reads_words "distributed" (layerHeader_small (Layout.of_small h.fits) (by omega) (by omega))
  have hfit : List.Forall₂ (fun (ok : ℕ → Bool) n => ok n = true ∧ n < 2 ^ 32)
      ((layers range.1 range.2).map fun _ n => decide (n ≤ l.compCap)) nComp := by
    rw [hnComp, ← h.nComp_eq]
    exact counts_fit hlayers _ h.fits.nComp_le
  have hfit' : List.Forall₂ (fun (ok : ℕ → Bool) n => ok n = true ∧ n < 2 ^ 32)
      ((layers range.1 range.2).map fun _ n => decide (n ≤ l.compCap)) nIndexComp := by
    rw [hnIndex, ← h.nIndexComp_eq]
    exact counts_fit hlayers _ h.fits.nIndexComp_le
  have hsize : kvTensorBytes sh l (layers range.1 range.2) nComp nIndexComp =
      some rows.length := h.size hle hlt
  have hread (e : String) : Reads (readChecked "distributed" e
      ((layers range.1 range.2).map fun _ n => decide (n ≤ l.compCap))) (words nComp) nComp :=
    reads_checked "distributed" e hfit
  have hread' (e : String) : Reads (readChecked "distributed" e
      ((layers range.1 range.2).map fun _ n => decide (n ≤ l.compCap))) (words nIndexComp)
      nIndexComp := reads_checked "distributed" e hfit'
  have hinput : Input.ofBytes (words (l.layerHeader range.1 range.2) ++ nodeBody sh node range) =
      ⟨words (l.layerHeader range.1 range.2) ++ (words nComp ++ (words nIndexComp ++ rows)),
        (words (l.layerHeader range.1 range.2)).length +
          ((words nComp).length + ((words nIndexComp).length + rows.length))⟩ := by
    simp [Input.ofBytes, nodeBody, Session.counts, hnComp, hnIndex, hrows]
  rw [hinput]
  unfold parseLayerPayload
  rw [ends_runs_bind (hheader _ _), ends_bind, ends_reject]
  have hlayout : Layout.ofLayerHeader sh.nVocab (l.layerHeader range.1 range.2) = l := rfl
  rw [hlayout, ends_bind, ends_reject, ends_bind, ends_reject, ends_bind, ends_reject]
  rw [ends_runs_bind (hread _ _ _), ends_runs_bind (hread' _ _ _), ends_runs_bind (runs_get _)]
  simp only [hsize]
  rw [ends_bind, ends_reject, ends_iff (runs_pure _ _)]
  simp only [Layout.layerHeader, getD_cons_zero, getD_cons_succ, take_length,
    bne_self_eq_false, Bool.or_self, Bool.false_or, true_and]
  have hrange : (decide (range.2 < range.1) || decide (l.nLayers ≤ range.2)) = false := by
    simpa using ⟨hle, hlt⟩
  have hvalid : (l.nLayers != sh.nLayer || !l.rawLiveValid) = false := by
    simpa using ⟨rfl, Layout.of_rawLiveValid s⟩
  rw [hrange, hvalid]
  simp only [true_and]
  rfl

end Parse

/-- The cluster holds the node's session: the coordinator its tokens and logits, and every hop
the layers that it serves. -/
structure Cluster.Holds (sh : Shape) (c : Cluster) (node : Session) : Prop where
  owner : HopHolds sh node c.owner (c.route.localStart, c.route.localEnd)
  logits : c.owner.logits = node.logits
  session : ∀ k < c.route.entry.length, (c.worker k).session = some (c.worker k).current
  hop : ∀ k, (h : k < c.route.entry.length) →
    HopHolds sh node (c.worker k).current (c.route.entry.get ⟨k, h⟩)

section Gather

variable {node : Session} {c : Cluster} {range : ℕ × ℕ}

theorem HopHolds.workerSave {w : Worker} (h : HopHolds sh node w.current range)
    (hsession : w.session = some w.current) (hle : range.1 ≤ range.2) (hlt : range.2 < sh.nLayer) :
    workerSave sh node.checkpoint w.session range.1 range.2 =
      .ok (words ((Layout.of sh w.current).layerHeader range.1 range.2) ++
        nodeBody sh node range) := by
  have hcheck := h.fits.checkpoint_le
  have hlen : w.current.checkpoint.length = node.checkpoint.length := by rw [h.checkpoint]
  rw [hsession]
  unfold Dist.workerSave
  dsimp only
  rw [if_neg (by omega), if_neg (by omega), h.checkpoint, if_neg (by simp),
    h.saveLayerPayload hle hlt]

theorem shard_ne_nil (l : Layout) (a b : ℕ) (rest : Bytes) :
    words (l.layerHeader a b) ++ rest ≠ [] := by
  have hlen := words_length (l.layerHeader a b)
  intro hnil
  rw [(append_eq_nil_iff.mp hnil).1] at hlen
  simp [Layout.layerHeader] at hlen

/-- One round of the loop over the shards: the hop's shard is parsed, where its layout is the
one of the shards before. -/
theorem gather_cons {i : ℕ} {known : Option Layout} {rest : List (ℕ × ℕ)}
    {s : Session} (h : HopHolds sh node s range) (hle : range.1 ≤ range.2)
    (hlt : range.2 < sh.nLayer) (hsave : c.saveShard sh i range.1 range.2 =
      .ok (words ((Layout.of sh s).layerHeader range.1 range.2) ++ nodeBody sh node range))
    (ps : List Parsed) :
    c.gather sh i known (range :: rest) = .ok ps ↔
      (known.any fun l => !l.layoutMatches (Layout.of sh s)) = false ∧
        ∃ ps', c.gather sh (i + 1) (some (known.getD (Layout.of sh s))) rest = .ok ps' ∧
          ps = parsedNode sh node (known.getD (Layout.of sh s)) range :: ps' := by
  have hparse (Q : Parsed → Prop) := @parse_saved sh node s range known h hle hlt Q
  generalize hgather : c.gather sh (i + 1) (some (known.getD (Layout.of sh s))) rest = others
  unfold Cluster.gather
  rw [hsave]
  dsimp only [bind, Except.bind]
  rw [if_neg (shard_ne_nil _ _ _ _)]
  cases hp : parseLayerPayload sh known range.1 range.2 (Input.ofBytes
      (words ((Layout.of sh s).layerHeader range.1 range.2) ++ nodeBody sh node range)) with
  | ok p j =>
    obtain ⟨hknown, rfl⟩ := (hparse fun q => p = q).mp ⟨p, j, hp, rfl⟩
    have hlayout : (parsedNode sh node (known.getD (Layout.of sh s)) range).layout =
      known.getD (Layout.of sh s) := rfl
    dsimp only
    rw [hlayout, hgather]
    cases others with
    | ok ps' => simp [hknown, pure, Except.pure, eq_comm]
    | error e => simp
  | error e j =>
    have hnot : ¬ (known.any fun l => !l.layoutMatches (Layout.of sh s)) = false := by
      intro hknown
      obtain ⟨p, j', hrun, -⟩ := (hparse fun _ => True).mpr ⟨hknown, trivial⟩
      cases hp.symm.trans hrun
    constructor
    · intro herror
      cases herror
    · exact fun hknown => absurd hknown.1 hnot

theorem saveShard_hop (h : c.Holds sh node) {k : ℕ} (hk : k < c.route.entry.length)
    (hrange : c.route.entry.get ⟨k, hk⟩ = range) (hle : range.1 ≤ range.2)
    (hlt : range.2 < sh.nLayer) :
    c.saveShard sh (k + 1) range.1 range.2 =
      .ok (words ((Layout.of sh (c.worker k).current).layerHeader range.1 range.2) ++
        nodeBody sh node range) := by
  subst hrange
  have hsave := (h.hop k hk).workerSave (h.session k hk) hle hlt
  rw [← h.owner.checkpoint] at hsave
  exact hsave

/-- The hops from the `k`-th on give the rows of their layers exactly if they all write the
layout that is already known. -/
theorem gather_hops (h : c.Holds sh node) (l : Layout) {k : ℕ} {ranges : List (ℕ × ℕ)}
    (hentry : c.route.entry.drop k = ranges)
    (hranges : ∀ r ∈ ranges, r.1 ≤ r.2 ∧ r.2 < sh.nLayer) (ps : List Parsed) :
    c.gather sh (k + 1) (some l) ranges = .ok ps ↔
      (∀ j < ranges.length,
        l.layoutMatches (Layout.of sh (c.worker (k + j)).current) = true) ∧
      ps = ranges.map (parsedNode sh node l) := by
  induction ranges generalizing k ps with
  | nil =>
    rw [show c.gather sh (k + 1) (some l) [] = .ok [] from rfl]
    simp only [Except.ok.injEq, length_nil, Nat.not_lt_zero, false_imp_iff, implies_true,
      true_and, map_nil]
    exact eq_comm
  | cons range rest ih =>
    obtain ⟨hle, hlt⟩ := hranges range (mem_cons_self ..)
    have hk : k < c.route.entry.length := by
      have hlen := congrArg length hentry
      rw [length_drop, length_cons] at hlen
      omega
    have hget : c.route.entry.get ⟨k, hk⟩ = range := by
      rw [drop_eq_getElem_cons hk] at hentry
      exact (cons.inj hentry).1
    have hrest : c.route.entry.drop (k + 1) = rest := by
      rw [drop_eq_getElem_cons hk] at hentry
      exact (cons.inj hentry).2
    have hhop := h.hop k hk
    rw [hget] at hhop
    rw [gather_cons hhop hle hlt (saveShard_hop h hk hget hle hlt)]
    simp only [any_some, getD_some, Bool.not_eq_false']
    simp only [ih hrest fun r hr => hranges r (mem_cons_of_mem _ hr)]
    rw [length_cons]
    constructor
    · rintro ⟨hfirst, ps', ⟨hothers, rfl⟩, rfl⟩
      refine ⟨fun j hj => ?_, rfl⟩
      cases j with
      | zero => exact hfirst
      | succ j =>
        have hj' := hothers j (by omega)
        rwa [show k + (j + 1) = k + 1 + j by omega]
    · rintro ⟨hall, rfl⟩
      refine ⟨hall 0 (by omega), _, ⟨fun j hj => ?_, rfl⟩, rfl⟩
      have hj' := hall (j + 1) (by omega)
      rwa [show k + 1 + j = k + (j + 1) by omega]

theorem follow_layers {n next : ℕ} {ranges : List (ℕ × ℕ)} {last : ℕ} (hnext : next ≤ n)
    (h : Route.follow n next ranges = some last) :
    next ≤ last ∧ last ≤ n ∧
      (ranges.flatMap fun r => layers r.1 r.2) = range' next (last - next) ∧
      ∀ r ∈ ranges, r.1 ≤ r.2 ∧ r.2 < n := by
  induction ranges generalizing next with
  | nil =>
    obtain rfl := some.inj h
    simp [hnext]
  | cons range rest ih =>
    obtain ⟨a, b⟩ := range
    unfold Route.follow at h
    split_ifs at h with hbad
    have hgood : a = next ∧ a ≤ b ∧ b < n := by omega
    obtain ⟨rfl, hab, hbn⟩ := hgood
    obtain ⟨hle, hlast, hlayers, hranges⟩ := ih (by omega) h
    refine ⟨by omega, hlast, ?_, ?_⟩
    · rw [flatMap_cons, hlayers]
      dsimp only [layers]
      have hsum : b + 1 - a + (last - (b + 1)) = last - a := by omega
      have hnext : b + 1 = a + (b + 1 - a) := by omega
      rw [← hsum, ← range'_append_1, ← hnext]
    · intro r hr
      rcases mem_cons.mp hr with rfl | hr
      · exact ⟨hab, hbn⟩
      · exact hranges r hr

/-- Every hop writes the coordinator's layout. -/
def Cluster.OneLayout (sh : Shape) (c : Cluster) : Prop :=
  ∀ k < c.route.entry.length,
    (Layout.of sh c.owner).layoutMatches (Layout.of sh (c.worker k).current) = true

theorem Route.shards_layers {r : Route} (h : r.validate sh.nLayer = .ok ()) :
    (r.shards.flatMap fun range => layers range.1 range.2) = List.range sh.nLayer ∧
      ∀ range ∈ r.shards, range.1 ≤ range.2 ∧ range.2 < sh.nLayer := by
  obtain ⟨hstart, hend, hfollow⟩ := validate_ok h
  obtain ⟨hle, -, hlayers, hranges⟩ := follow_layers (by omega) hfollow
  constructor
  · rw [Route.shards, flatMap_cons, hlayers, range_eq_range']
    dsimp only [layers]
    have hsum : r.localEnd + 1 + (sh.nLayer - (r.localEnd + 1)) = sh.nLayer := by omega
    have hnext := range'_append_1 (s := 0) (m := r.localEnd + 1) (n := sh.nLayer - (r.localEnd + 1))
    rw [Nat.zero_add, hsum] at hnext
    rw [hstart, Nat.sub_zero, hnext]
  · intro range hrange
    rcases mem_cons.mp hrange with rfl | hrange
    · exact ⟨by simp [hstart], hend⟩
    · exact hranges range hrange

theorem parsedNode_concat (sh : Shape) (node : Session) (l : Layout) (ranges : List (ℕ × ℕ)) :
    let ps := ranges.map (parsedNode sh node l)
    let ils := ranges.flatMap fun range => layers range.1 range.2
    ps.flatMap Parsed.nComp = ils.map (fun il => (node.layer il).nComp) ∧
      ps.flatMap Parsed.nIndexComp = ils.map (fun il => (node.layer il).nIndexComp) ∧
      ps.flatMap Parsed.tensors = node.rows sh ils := by
  induction ranges with
  | nil => exact ⟨rfl, rfl, rfl⟩
  | cons range rest ih =>
    obtain ⟨h1, h2, h3⟩ := ih
    simp only [map_cons, flatMap_cons, map_append, Session.rows_append, h1, h2, h3]
    exact ⟨rfl, rfl, rfl⟩

theorem savePayload_node (hs : node.Fits sh) (hvalid : node.checkpointValid = true) :
    node.savePayload sh = .ok (words (node.header sh) ++ words node.checkpoint ++ node.logits ++
      node.counts (List.range sh.nLayer) ++ node.rows sh (List.range sh.nLayer)) := by
  unfold Session.savePayload
  rw [hs.writeTensors fun il hil => mem_range.mp hil, hvalid]
  rfl

theorem Layout.of_congr {s : Session} (hcaps : s.caps = node.caps)
    (hcheck : s.checkpoint = node.checkpoint) : Layout.of sh s = Layout.of sh node := by
  unfold Layout.of
  rw [s.rawLive_eq sh, node.rawLive_eq sh, hcaps, hcheck]

/-- A cluster saves exactly where every hop writes the coordinator's layout, and then what
a single node saves. -/
theorem savePayload_iff (h : c.Holds sh node) (hroute : c.route.validate sh.nLayer = .ok ())
    (hnode : node.Fits sh) (hvalid : node.checkpointValid = true)
    (hcaps : c.owner.caps = node.caps) (payload : Bytes) :
    c.savePayload sh = .ok payload ↔ c.OneLayout sh ∧ node.savePayload sh = .ok payload := by
  obtain ⟨hlayers, hranges⟩ := Route.shards_layers hroute
  obtain ⟨hle, hlt⟩ := hranges _ (mem_cons_self ..)
  have hown : c.saveShard sh 0 c.route.localStart c.route.localEnd =
      .ok (words ((Layout.of sh c.owner).layerHeader c.route.localStart c.route.localEnd) ++
        nodeBody sh node (c.route.localStart, c.route.localEnd)) :=
    h.owner.saveLayerPayload hle hlt
  have hgather (ps : List Parsed) : c.gather sh 0 none c.route.shards = .ok ps ↔
      c.OneLayout sh ∧ ps = c.route.shards.map (parsedNode sh node (Layout.of sh c.owner)) := by
    rw [Route.shards, gather_cons h.owner hle hlt hown]
    simp only [any_none, getD_none, true_and]
    simp only [gather_hops h _ (drop_zero ..) fun r hr => hranges r (mem_cons_of_mem _ hr)]
    constructor
    · rintro ⟨_, ⟨hall, rfl⟩, rfl⟩
      exact ⟨fun k hk => by simpa using hall k hk, rfl⟩
    · rintro ⟨hall, rfl⟩
      exact ⟨_, ⟨fun k hk => by simpa using hall k hk, rfl⟩, rfl⟩
  have hheader : (Layout.of sh c.owner).sessionHeader = node.header sh := by
    rw [Layout.of_congr hcaps h.owner.checkpoint, Layout.of_sessionHeader]
  obtain ⟨hn, hm, hrows⟩ := parsedNode_concat sh node (Layout.of sh c.owner) c.route.shards
  rw [savePayload_node hnode hvalid]
  unfold Cluster.savePayload
  rw [hroute]
  dsimp only [bind, Except.bind]
  cases hg : c.gather sh 0 none c.route.shards with
  | error e =>
    constructor
    · intro herror
      cases herror
    · rintro ⟨hall, -⟩
      cases hg.symm.trans ((hgather _).mpr ⟨hall, rfl⟩)
  | ok ps =>
    obtain ⟨hall, rfl⟩ := (hgather ps).mp hg
    obtain ⟨last, hlast⟩ : ∃ last, (c.route.shards.map
        (parsedNode sh node (Layout.of sh c.owner))).getLast? = some last :=
      isSome_iff_exists.mp (by simp [Route.shards])
    obtain ⟨range, -, rfl⟩ := mem_map.mp (mem_of_getLast? hlast)
    have hlen := congrArg length h.owner.checkpoint
    dsimp only
    rw [hlast, hn, hm, hrows, hlayers, h.owner.checkpoint, h.logits]
    dsimp only [parsedNode]
    rw [hheader, if_neg (by simp [Layout.of, hlen])]
    simp only [hall, true_and, pure, Except.pure, Except.ok.injEq, Session.counts, append_assoc]

end Gather

end Ds4Studio.Dist
