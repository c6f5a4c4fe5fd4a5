import Ds4Studio.Dist.Saving

/-!
Fronts of payloads: what a coordinator knows once it has taken everything in front of the
tensor rows, and which shards it cuts from there on.
-/

namespace Ds4Studio.Dist

open List LittleEndian Payload Reader Stateful

variable {sh : Shape}

/-- What an accepted front of a payload guarantees. -/
structure Front.Sound (sh : Shape) (f : Front) : Prop where
  small : f.layout.Small
  nLayers_eq : f.layout.nLayers = sh.nLayer
  nComp_length : f.nComp.length = sh.nLayer
  nIndexComp_length : f.nIndexComp.length = sh.nLayer
  nComp_lt : ∀ n ∈ f.nComp, n < 2 ^ 32
  nIndexComp_lt : ∀ n ∈ f.nIndexComp, n < 2 ^ 32

private theorem length_of_checked {k : ℕ} {ok : ℕ → Bool} {ns : List ℕ}
    (h : List.Forall₂ (fun ok n => ok n = true ∧ n < 2 ^ 32) (replicate k ok) ns) :
    ns.length = k ∧ ∀ n ∈ ns, n < 2 ^ 32 := by
  refine ⟨by simpa using h.length_eq.symm, ?_⟩
  intro n hn
  obtain ⟨i, hi, rfl⟩ := mem_iff_getElem.mp hn
  exact (h.get (by rw [h.length_eq]; exact hi) hi).2

theorem readFront_sound {allocates : Bool} {ctxSize : ℕ} {i j : Input} {f : Front}
    (h : Runs (readFront sh allocates ctxSize) i f j) : f.Sound sh := by
  obtain ⟨hd, i₁, hhead, h⟩ := h.of_bind
  obtain ⟨_, i₂, -, h⟩ := h.of_bind
  obtain ⟨_, i₃, hfits, h⟩ := h.of_bind
  obtain ⟨_, i₄, -, h⟩ := h.of_bind
  obtain ⟨tokens, i₅, -, h⟩ := h.of_bind
  obtain ⟨logits, i₆, -, h⟩ := h.of_bind
  obtain ⟨nComp, i₇, hn, h⟩ := h.of_bind
  obtain ⟨nIndexComp, i₈, hm, h⟩ := h.of_bind
  obtain ⟨rfl, -⟩ := h.unique (runs_pure _ i₈)
  obtain ⟨hlen, hlt⟩ := length_of_checked (readChecked_spec hn)
  obtain ⟨hlen', hlt'⟩ := length_of_checked (readChecked_spec hm)
  obtain ⟨hdlen, hdlt⟩ := length_of_checked (readChecked_spec hhead)
  have hlayers : (Layout.ofSessionHeader hd).nLayers = sh.nLayer := by
    by_contra hne
    refine hfits.not_fails (fails_reject ?_ _)
    simp [hne]
  have hget : ∀ k, hd.getD k 0 < 2 ^ 32 := by
    intro k
    rw [getD_eq_getElem?_getD]
    cases hk : hd[k]? with
    | none => simp
    | some n => exact hdlt n (mem_of_getElem? hk)
  refine ⟨?_, hlayers, hlen.trans hlayers, hlen'.trans hlayers, hlt, hlt'⟩
  simp only [Layout.Small, Layout.sessionHeader, Layout.ofSessionHeader, forall_mem_cons]
  exact ⟨by decide, by decide, hget _, hget _, hget _, hget _, hget _, hget _, hget _, hget _,
    hget _, hget _, hget _, by simp⟩

theorem slice_length {layerStart layerEnd : ℕ} {counts : List ℕ}
    (h : layerEnd < counts.length) (hle : layerStart ≤ layerEnd) :
    (slice layerStart layerEnd counts).length = layerEnd + 1 - layerStart := by
  simp only [slice, length_take, length_drop]
  omega

theorem mem_slice {layerStart layerEnd : ℕ} {counts : List ℕ} {n : ℕ}
    (h : n ∈ slice layerStart layerEnd counts) : n ∈ counts :=
  mem_of_mem_drop (mem_of_mem_take h)

/-- The bytes of the rows of a hop's shard. -/
def Front.rowBytes (sh : Shape) (f : Front) (range : ℕ × ℕ) : Option ℕ :=
  sliceBytes sh f.layout (layers range.1 range.2) (slice range.1 range.2 f.nComp)
    (slice range.1 range.2 f.nIndexComp)

/-- What the coordinator's shard says about its rows. -/
def Front.shard (f : Front) (range : ℕ × ℕ) : Shard :=
  shardOf f.layout range.1 (slice range.1 range.2 f.nComp) (slice range.1 range.2 f.nIndexComp)

def Front.accepted (sh : Shape) (f : Front) (s : Session) (range : ℕ × ℕ) : Prop :=
  Accepts sh s f.layout f.tokens.length range.1 range.2 (slice range.1 range.2 f.nComp)
    (slice range.1 range.2 f.nIndexComp)

theorem ends_prepareShard {staged : Except String Unit} {f : Front} {range : ℕ × ℕ} {i : Input}
    {Q : Bytes → Input → Prop} :
    Ends (prepareShard sh staged f range.1 range.2) i Q ↔ staged = .ok () ∧
      ∃ n, f.rowBytes sh range = some n ∧ n ≤ i.remaining ∧ n ≤ i.stream.length ∧
        Q (f.shardFront range.1 range.2 ++ i.stream.take n)
          ⟨i.stream.drop n, i.remaining - n⟩ := by
  unfold prepareShard
  cases staged with
  | error e =>
    have hfails : Fails (throw e : Reader Bytes) i := ⟨_, _, rfl⟩
    simp only [reduceCtorEq, false_and, iff_false]
    exact not_ends hfails
  | ok u =>
    change Ends (copyLayers sh f.layout (layers range.1 range.2) _ _ >>= _) i Q ↔ _
    rw [ends_bind, ends_copyLayers]
    simp only [ends_iff (runs_pure _ _), true_and]
    rfl

variable {node : Session}

/-- The front of the payload of a session. -/
def nodeFront (sh : Shape) (node : Session) : Front where
  layout := Layout.of sh node
  tokens := node.checkpoint
  logits := node.logits
  nComp := (List.range sh.nLayer).map fun il => (node.layer il).nComp
  nIndexComp := (List.range sh.nLayer).map fun il => (node.layer il).nIndexComp

/-- The session can take the layers of the node: its context holds the node's and has room
behind the node's timeline, and its raw window is the node's. -/
structure Takes (sh : Shape) (node s : Session) : Prop where
  ctxSize_le : node.caps.ctxSize ≤ s.caps.ctxSize
  checkpoint_lt : node.checkpoint.length < s.caps.ctxSize
  rawWindow_eq : sh.rawWindow node.caps = sh.rawWindow s.caps

/-- The payload of a session on a single node. -/
def nodePayload (sh : Shape) (node : Session) : Bytes :=
  words (node.header sh) ++ words node.checkpoint ++ node.logits ++
    node.counts (List.range sh.nLayer) ++ node.rows sh (List.range sh.nLayer)

section Front

theorem count_lt {f : ℕ → ℕ} (hf : ∀ il < sh.nLayer, f il ≤ sh.layerCompCap node.caps il) :
    List.Forall₂ (fun (ok : ℕ → Bool) n => ok n = true ∧ n < 2 ^ 32)
      (replicate sh.nLayer fun n => decide (n ≤ sh.compCap node.caps))
      ((List.range sh.nLayer).map f) := by
  have hconst : (replicate sh.nLayer fun n => decide (n ≤ sh.compCap node.caps)) =
      (List.range sh.nLayer).map fun _ n => decide (n ≤ sh.compCap node.caps) := by
    simp
  rw [hconst, forall₂_map_left_iff, forall₂_map_right_iff, forall₂_same]
  intro il hil
  have hle := (hf il (mem_range.mp hil)).trans
    (sh.layerCompCap_le_compCap node.caps (mem_range.mp hil))
  exact ⟨decide_eq_true hle, lt_of_le_of_lt hle (sh.compCap_lt node.caps)⟩

variable (hs : node.Fits sh)
include hs

/-- A coordinator takes the front of a session's payload if its context is no smaller than
the session's and larger than its timeline. -/
theorem ends_readFront_node {ctxSize : ℕ} {Q : Front → Input → Prop} :
    Ends (readFront sh true ctxSize) (Input.ofBytes (nodePayload sh node)) Q ↔
      (node.caps.ctxSize ≤ ctxSize ∧ node.checkpoint.length < ctxSize) ∧
        Q (nodeFront sh node) (Input.ofBytes (node.rows sh (List.range sh.nLayer))) := by
  set l := Layout.of sh node with hl
  have hheader : Reads (readWords "distributed" 13) (words l.sessionHeader) l.sessionHeader :=
    reads_words "distributed" (Layout.of_small hs)
  have htokens (e : String) : Reads (readChecked "distributed" e (replicate l.tokenCount
      fun token => decide (token < sh.nVocab))) (words node.checkpoint) node.checkpoint := by
    refine reads_checked "distributed" e ?_
    have hconst : (replicate l.tokenCount fun token => decide (token < sh.nVocab)) =
        node.checkpoint.map fun _ token => decide (token < sh.nVocab) := by
      simp [map_const', hl, Layout.of]
    rw [hconst, forall₂_map_left_iff, forall₂_same]
    intro token htoken
    have hlt := hs.token_lt token htoken
    have hvocab := sh.nVocab_lt
    exact ⟨decide_eq_true hlt, by omega⟩
  have hlogits : Reads (readBytes "distributed" (l.vocab * 4)) node.logits node.logits := by
    rw [Nat.mul_comm, show 4 * l.vocab = node.logits.length from hs.logits_length.symm]
    exact reads_bytes "distributed" node.logits
  have hn (e : String) : Reads (readChecked "distributed" e (replicate l.nLayers fun n =>
      decide (n ≤ l.compCap))) (words (nodeFront sh node).nComp)
      (nodeFront sh node).nComp := reads_checked "distributed" e (count_lt hs.nComp_le)
  have hm (e : String) : Reads (readChecked "distributed" e (replicate l.nLayers fun n =>
      decide (n ≤ l.compCap))) (words (nodeFront sh node).nIndexComp)
      (nodeFront sh node).nIndexComp := reads_checked "distributed" e (count_lt hs.nIndexComp_le)
  have hinput : Input.ofBytes (nodePayload sh node) =
      ⟨words l.sessionHeader ++ (words node.checkpoint ++ (node.logits ++
          (words (nodeFront sh node).nComp ++ (words (nodeFront sh node).nIndexComp ++
            node.rows sh (List.range sh.nLayer))))),
        (words l.sessionHeader).length + ((words node.checkpoint).length + (node.logits.length +
          ((words (nodeFront sh node).nComp).length +
            ((words (nodeFront sh node).nIndexComp).length +
              (node.rows sh (List.range sh.nLayer)).length))))⟩ := by
    rw [Layout.of_sessionHeader]
    simp [Input.ofBytes, nodePayload, nodeFront, Session.counts]
  have hlayout : Layout.ofSessionHeader l.sessionHeader = l := rfl
  have hmagic : (l.sessionHeader.getD 0 0 != sessionMagic ||
    l.sessionHeader.getD 1 0 != sessionVersion) = false := rfl
  rw [hinput]
  unfold readFront
  rw [ends_runs_bind (hheader _ _), ends_bind, ends_reject, hmagic, hlayout]
  rw [ends_bind, ends_reject, ends_bind, ends_reject, ends_runs_bind (htokens _ _ _),
    ends_runs_bind (hlogits _ _), ends_runs_bind (hn _ _ _), ends_runs_bind (hm _ _ _),
    ends_iff (runs_pure _ _), Layout.of_rawLiveValid]
  simp only [hl, Layout.of, bne_self_eq_false, Bool.false_or, Bool.or_false, Bool.not_true,
    Bool.or_eq_false_iff, decide_eq_false_iff_not, not_lt, not_le, true_and]
  exact Iff.rfl

theorem nodeFront_sound : (nodeFront sh node).Sound sh := by
  have hlt {f : ℕ → ℕ} (hf : ∀ il < sh.nLayer, f il ≤ sh.layerCompCap node.caps il) :
      ∀ n ∈ (List.range sh.nLayer).map f, n < 2 ^ 32 := by
    intro n hn
    obtain ⟨il, hil, rfl⟩ := mem_map.mp hn
    have hle := (hf il (mem_range.mp hil)).trans
      (sh.layerCompCap_le_compCap node.caps (mem_range.mp hil))
    exact lt_of_le_of_lt hle (sh.compCap_lt node.caps)
  exact {
    small := Layout.of_small hs
    nLayers_eq := rfl
    nComp_length := by simp [nodeFront]
    nIndexComp_length := by simp [nodeFront]
    nComp_lt := hlt hs.nComp_le
    nIndexComp_lt := hlt hs.nIndexComp_le }

end Front

section Slice

variable {range : ℕ × ℕ} (hle : range.1 ≤ range.2) (hlt : range.2 < sh.nLayer)
include hle hlt

theorem slice_range (f : ℕ → ℕ) :
    slice range.1 range.2 ((List.range sh.nLayer).map f) = (layers range.1 range.2).map f := by
  have hdrop : (List.range sh.nLayer).drop range.1 =
      range' range.1 (sh.nLayer - range.1) := by
    rw [range_eq_range', drop_range', Nat.mul_one, Nat.zero_add]
  have htake : (range' range.1 (sh.nLayer - range.1)).take (range.2 + 1 - range.1) =
      layers range.1 range.2 := by
    exact take_range'_of_length_ge (by omega)
  rw [slice, ← map_drop, ← map_take, hdrop, htake]

theorem nodeFront_shard (node : Session) :
    (nodeFront sh node).shard range = node.shard sh range.1 range.2 := by
  unfold Front.shard nodeFront
  rw [slice_range hle hlt, slice_range hle hlt]
  rfl

theorem nodeFront_rowBytes (hs : node.Fits sh) :
    (nodeFront sh node).rowBytes sh range =
      some (node.rows sh (layers range.1 range.2)).length := by
  have hlayers := layers_lt range.1 hlt
  unfold Front.rowBytes nodeFront
  rw [slice_range hle hlt, slice_range hle hlt, hs.rows_length (sh.rawCap node.caps) hlayers,
    Session.slotsIn_eq]
  exact sliceBytes_small hs hlayers

/-- The shard of the node's layers is cut off the rows in front of `b`. -/
theorem ends_prepareNode (hs : node.Fits sh) (b : Bytes) {Q : Bytes → Input → Prop} :
    Ends (prepareShard sh (.ok ()) (nodeFront sh node) range.1 range.2)
        (Input.ofBytes (node.rows sh (layers range.1 range.2) ++ b)) Q ↔
      Q ((nodeFront sh node).shardFront range.1 range.2 ++ node.rows sh (layers range.1 range.2))
        (Input.ofBytes b) := by
  rw [ends_prepareShard, nodeFront_rowBytes hle hlt hs]
  simp [Input.ofBytes]

theorem nodeFront_accepted (hs : node.Fits sh) {s : Session} :
    (nodeFront sh node).accepted sh s range ↔ Takes sh node s := by
  have hlayers := layers_lt range.1 hlt
  unfold Front.accepted nodeFront
  rw [slice_range hle hlt, slice_range hle hlt]
  constructor
  · exact fun h => ⟨h.ctx_le, h.tokenCount_lt, h.rawWindow_eq⟩
  · rintro ⟨hctx, htokens, hwindow⟩
    have hcount {f : ℕ → ℕ} (hf : ∀ il < sh.nLayer, f il ≤ sh.layerCompCap node.caps il) :
        List.Forall₂ (fun il n => n ≤ sh.compCap node.caps ∧ n ≤ sh.layerCompCap s.caps il)
          (layers range.1 range.2) ((layers range.1 range.2).map f) := by
      rw [forall₂_map_right_iff, forall₂_same]
      intro il hil
      have hf' := hf il (hlayers il hil)
      exact ⟨hf'.trans (sh.layerCompCap_le_compCap node.caps (hlayers il hil)),
        hf'.trans (sh.layerCompCap_mono hctx il)⟩
    have hcap := sh.rawWindow_le_rawCap s.caps
    have hlive := node.rawLive_eq sh
    exact {
      start_le := hle
      end_lt := hlt
      ctx_le := hctx
      tokenCount_eq := rfl
      tokenCount_lt := htokens
      nLayers_eq := rfl
      headDim_eq := rfl
      indexerHeadDim_eq := rfl
      rawWindow_eq := hwindow
      rawCap_ne := (sh.rawCap_pos node.caps).ne'
      rawLive_eq := hlive
      rawLive_le := node.rawLive_le_rawCap sh
      rawLive_le_rawCap := by
        change node.rawLive sh ≤ _
        omega
      compCap_le := sh.compCap_mono hctx
      nComp_le := hcount hs.nComp_le
      nIndexComp_le := hcount hs.nIndexComp_le }

end Slice

end Ds4Studio.Dist
