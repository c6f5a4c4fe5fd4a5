import Ds4Studio.Lib.Bytes
import Mathlib.Data.List.Nodup
import Mathlib.Data.List.Range
import Mathlib.Data.Nat.ModEq

/-!
The cache tensors of a graph session and the rows of them that a payload holds:
the last raw rows, which stand in a ring, the compressed rows in front of the
row counts, and the frontiers of the compressors.
-/

namespace Ds4Studio.Payload

open List

/-- The numbers of the loaded model, and how its build stores the rows of the
attention-compressed cache: as they are, or as halves on Apple machines. -/
structure Shape where
  nLayer : ℕ
  headDim : ℕ
  indexerHeadDim : ℕ
  nVocab : ℕ
  nSwa : ℕ
  compressRatio : ℕ → ℕ
  f16AsF32 : Bytes → Bytes
  f32AsF16 : Bytes → Bytes
  nLayer_lt : nLayer < 2 ^ 7
  headDim_lt : headDim < 2 ^ 16
  indexerHeadDim_lt : indexerHeadDim < 2 ^ 16
  nVocab_lt : nVocab < 2 ^ 31
  compressRatio_le : ∀ il, compressRatio il ≤ 128

/-- The shape of the smaller model on a build that stores all rows as floats. -/
def Shape.flash : Shape where
  nLayer := 43
  headDim := 512
  indexerHeadDim := 128
  nVocab := 129280
  nSwa := 128
  compressRatio il := if il < 2 then 0 else if il % 2 = 0 then 4 else 128
  f16AsF32 := id
  f32AsF16 := id
  nLayer_lt := by decide
  headDim_lt := by decide
  indexerHeadDim_lt := by decide
  nVocab_lt := by decide
  compressRatio_le il := by split_ifs <;> omega

/-- What a session is allocated for. -/
structure Caps where
  ctxSize : ℕ
  prefillCap : ℕ
  rawCapWanted : ℕ
  ctxSize_pos : 0 < ctxSize
  ctxSize_lt : ctxSize < 2 ^ 31
  prefillCap_lt : prefillCap < 2 ^ 32

/-- The cache tensors of a layer. -/
inductive Tensor
  | rawCache
  | attnCompCache
  | attnStateKv
  | attnStateScore
  | indexCompCache
  | indexStateKv
  | indexStateScore
  deriving DecidableEq

/-- A layer of the graph: the rows of its tensors, and how many rows are compressed. -/
structure Layer where
  rows : Tensor × ℕ → Bytes
  nComp : ℕ
  nIndexComp : ℕ

structure Session where
  caps : Caps
  layer : ℕ → Layer
  checkpoint : List ℕ
  checkpointValid : Bool
  logits : Bytes
  mtpDraftValid : Bool
  mtpNRaw : ℕ

/-- The least ratio that is not zero. -/
def leastRatio (ratios : List ℕ) : ℕ :=
  ratios.foldl (fun least ratio => if ratio ≠ 0 ∧ ratio < least then ratio else least) (2 ^ 32 - 1)

namespace Shape

variable (sh : Shape)

def rawWindow (c : Caps) : ℕ :=
  let window := if c.ctxSize < sh.nSwa then c.ctxSize else sh.nSwa
  if window = 0 then 1 else window

def rawCap (c : Caps) : ℕ :=
  let cap := if c.rawCapWanted = 0 then 1 else c.rawCapWanted
  let cap := if cap < sh.rawWindow c then sh.rawWindow c else cap
  let cap := if c.ctxSize < cap then c.ctxSize else cap
  if cap = 0 then 1 else cap

def minRatio (c : Caps) : ℕ :=
  let ratio := leastRatio ((range sh.nLayer).map sh.compressRatio)
  if ratio = 2 ^ 32 - 1 then c.ctxSize else ratio

def compCap (c : Caps) : ℕ := c.ctxSize / sh.minRatio c + 2

def layerCompCap (c : Caps) (il : ℕ) : ℕ :=
  if sh.compressRatio il = 0 then 0 else c.ctxSize / sh.compressRatio il + 2

/-- `layer_attn_state_bytes` and `layer_index_state_bytes`. -/
def stateBytes (headDim ratio : ℕ) : ℕ :=
  let coff := if ratio = 4 then 2 else 1
  coff * headDim * coff * ratio * 4

/-- How many rows a tensor of a layer is allocated for. -/
def rowCount (c : Caps) (il : ℕ) : Tensor → ℕ
  | .rawCache => sh.rawCap c
  | .attnCompCache | .indexCompCache => sh.layerCompCap c il
  | .attnStateKv | .attnStateScore | .indexStateKv | .indexStateScore => 1

/-- How many bytes a payload spends on a row of a tensor. -/
def rowBytes (il : ℕ) : Tensor → ℕ
  | .rawCache | .attnCompCache => sh.headDim * 4
  | .attnStateKv | .attnStateScore => stateBytes sh.headDim (sh.compressRatio il)
  | .indexCompCache => sh.indexerHeadDim * 4
  | .indexStateKv | .indexStateScore => stateBytes sh.indexerHeadDim (sh.compressRatio il)

/-- A stored row as the payload spells it. -/
def spell (t : Tensor) (row : Bytes) : Bytes := if t = .attnCompCache then sh.f16AsF32 row else row

/-- A row of the payload as the tensor stores it. -/
def store (t : Tensor) (row : Bytes) : Bytes := if t = .attnCompCache then sh.f32AsF16 row else row

/-- The rows of a layer that a payload holds, in the order of the file: the last
`rawLive` positions of the ring, and with compression the compressed rows and the
frontiers. -/
def spans (rawCap tokens rawLive ratio nComp nIndexComp : ℕ) : List (Tensor × ℕ) :=
  (range rawLive).map (fun r => (.rawCache, (tokens - rawLive + r) % rawCap)) ++
    if ratio = 0 then [] else
      (range nComp).map (fun r => (.attnCompCache, r)) ++
        [(.attnStateKv, 0), (.attnStateScore, 0)] ++
        if ratio = 4 then
          (range nIndexComp).map (fun r => (.indexCompCache, r)) ++
            [(.indexStateKv, 0), (.indexStateScore, 0)]
        else []

end Shape

/-- `session_raw_live_rows`. -/
def Session.rawLive (sh : Shape) (s : Session) : ℕ :=
  let rows := if sh.rawWindow s.caps = 0 then sh.nSwa else sh.rawWindow s.caps
  let rows := if sh.rawCap s.caps < rows then sh.rawCap s.caps else rows
  if s.checkpoint.length < rows then s.checkpoint.length else rows

/-- The rows of a layer that the session's payloads hold. -/
def Session.spans (sh : Shape) (s : Session) (il : ℕ) : List (Tensor × ℕ) :=
  Shape.spans (sh.rawCap s.caps) s.checkpoint.length (s.rawLive sh) (sh.compressRatio il)
    (s.layer il).nComp (s.layer il).nIndexComp

/-- A row of a layer as the payload spells it. -/
def Layer.spell (sh : Shape) (l : Layer) (span : Tensor × ℕ) : Bytes :=
  sh.spell span.1 (l.rows span)

def Layer.restore (sh : Shape) (l : Layer) (span : Tensor × ℕ) (row : Bytes) : Layer :=
  { l with rows := Function.update l.rows span (sh.store span.1 row) }

def Session.restore (sh : Shape) (s : Session) (il : ℕ) (span : Tensor × ℕ) (row : Bytes) :
    Session :=
  { s with layer := Function.update s.layer il ((s.layer il).restore sh span row) }

/-- What a session holds of a layer, apart from where the rows stand in its tensors. -/
structure Content where
  nComp : ℕ
  nIndexComp : ℕ
  rows : List Bytes

def Session.content (sh : Shape) (s : Session) (il : ℕ) : Content where
  nComp := (s.layer il).nComp
  nIndexComp := (s.layer il).nIndexComp
  rows := (s.spans sh il).map ((s.layer il).spell sh)

/-- A session whose tensors are allocated for its capacities and which has stayed within
them. Stored rows survive the way through a payload: they hold numbers. -/
structure Session.Fits (sh : Shape) (s : Session) : Prop where
  spell_length : ∀ il < sh.nLayer, ∀ t r, r < sh.rowCount s.caps il t →
    ((s.layer il).spell sh (t, r)).length = sh.rowBytes il t
  store_spell : ∀ il < sh.nLayer, ∀ t r, r < sh.rowCount s.caps il t →
    sh.store t ((s.layer il).spell sh (t, r)) = (s.layer il).rows (t, r)
  nComp_le : ∀ il < sh.nLayer, (s.layer il).nComp ≤ sh.layerCompCap s.caps il
  nIndexComp_le : ∀ il < sh.nLayer, (s.layer il).nIndexComp ≤ sh.layerCompCap s.caps il
  checkpoint_le : s.checkpoint.length ≤ s.caps.ctxSize
  token_lt : ∀ t ∈ s.checkpoint, t < sh.nVocab
  logits_length : s.logits.length = 4 * sh.nVocab

section LeastRatio

private theorem foldl_least_le (ratios : List ℕ) (init : ℕ) :
    let least := ratios.foldl
      (fun least ratio => if ratio ≠ 0 ∧ ratio < least then ratio else least) init
    least ≤ init ∧ ∀ ratio ∈ ratios, ratio ≠ 0 → least ≤ ratio := by
  induction ratios generalizing init with
  | nil => simp
  | cons ratio ratios ih =>
    obtain ⟨hinit, hmem⟩ := ih (if ratio ≠ 0 ∧ ratio < init then ratio else init)
    constructor
    · refine le_trans hinit ?_
      split_ifs <;> omega
    · intro r hr hpos
      rcases mem_cons.mp hr with rfl | hr
      · refine le_trans hinit ?_
        split_ifs <;> omega
      · exact hmem r hr hpos

theorem leastRatio_le {ratios : List ℕ} {ratio : ℕ} (h : ratio ∈ ratios) (hpos : ratio ≠ 0) :
    leastRatio ratios ≤ ratio := (foldl_least_le ratios _).2 ratio h hpos

private theorem foldl_least_pos (ratios : List ℕ) {init : ℕ} (h : 0 < init) :
    0 < ratios.foldl
      (fun least ratio => if ratio ≠ 0 ∧ ratio < least then ratio else least) init := by
  induction ratios generalizing init with
  | nil => exact h
  | cons ratio ratios ih =>
    have hstep : 0 < (if ratio ≠ 0 ∧ ratio < init then ratio else init) := by split_ifs <;> omega
    exact ih hstep

theorem leastRatio_pos (ratios : List ℕ) : 0 < leastRatio ratios :=
  foldl_least_pos ratios (by decide)

end LeastRatio

namespace Shape

variable (sh : Shape) (c d : Caps)

theorem rawWindow_pos : 0 < sh.rawWindow c := by
  simp only [rawWindow]
  split_ifs <;> omega

theorem rawWindow_le_ctxSize : sh.rawWindow c ≤ c.ctxSize := by
  have hc := c.ctxSize_pos
  simp only [rawWindow]
  split_ifs <;> omega

theorem rawWindow_le_rawCap : sh.rawWindow c ≤ sh.rawCap c := by
  have hw := sh.rawWindow_le_ctxSize c
  simp only [rawCap]
  split_ifs <;> omega

theorem rawCap_pos : 0 < sh.rawCap c :=
  lt_of_lt_of_le (sh.rawWindow_pos c) (sh.rawWindow_le_rawCap c)

theorem rawCap_le_ctxSize : sh.rawCap c ≤ c.ctxSize := by
  have hc := c.ctxSize_pos
  simp only [rawCap]
  split_ifs <;> omega

theorem minRatio_pos : 0 < sh.minRatio c := by
  have hc := c.ctxSize_pos
  have hl := leastRatio_pos ((range sh.nLayer).map sh.compressRatio)
  simp only [minRatio]
  split_ifs <;> omega

theorem compCap_lt : sh.compCap c < 2 ^ 32 := by
  have hc := c.ctxSize_lt
  have hd := Nat.div_le_self c.ctxSize (sh.minRatio c)
  unfold compCap
  omega

theorem layerCompCap_le_compCap {il : ℕ} (h : il < sh.nLayer) :
    sh.layerCompCap c il ≤ sh.compCap c := by
  unfold layerCompCap compCap
  by_cases hr : sh.compressRatio il = 0
  · simp [hr]
  · have hle : leastRatio ((range sh.nLayer).map sh.compressRatio) ≤ sh.compressRatio il :=
      leastRatio_le (mem_map.mpr ⟨il, mem_range.mpr h, rfl⟩) hr
    have hmin : sh.minRatio c ≤ sh.compressRatio il := by
      have h128 := sh.compressRatio_le il
      simp only [minRatio]
      split_ifs <;> omega
    rw [if_neg hr]
    exact Nat.add_le_add_right (Nat.div_le_div_left hmin (sh.minRatio_pos c)) 2

variable {c d}

theorem compCap_mono (h : c.ctxSize ≤ d.ctxSize) : sh.compCap c ≤ sh.compCap d := by
  have hc := c.ctxSize_pos
  have hd := d.ctxSize_pos
  simp only [compCap, minRatio]
  split_ifs
  · rw [Nat.div_self hc, Nat.div_self hd]
  · exact Nat.add_le_add_right (Nat.div_le_div_right h) 2

theorem layerCompCap_mono (h : c.ctxSize ≤ d.ctxSize) (il : ℕ) :
    sh.layerCompCap c il ≤ sh.layerCompCap d il := by
  unfold layerCompCap
  split_ifs
  · exact le_rfl
  · exact Nat.add_le_add_right (Nat.div_le_div_right h) 2

end Shape

namespace Session

theorem rawLive_eq (sh : Shape) (s : Session) :
    s.rawLive sh = min s.checkpoint.length (sh.rawWindow s.caps) := by
  have hw := sh.rawWindow_pos s.caps
  have hc := sh.rawWindow_le_rawCap s.caps
  simp only [rawLive]
  split_ifs <;> omega

theorem rawLive_le_rawCap (sh : Shape) (s : Session) : s.rawLive sh ≤ sh.rawCap s.caps := by
  have hc := sh.rawWindow_le_rawCap s.caps
  rw [rawLive_eq]
  omega

end Session

namespace Shape

variable {sh : Shape} {c : Caps} {il tokens rawLive nComp nIndexComp : ℕ}

/-- Rows stand inside of tensors that have room for the ring, the row counts and the frontiers. -/
theorem spans_inside {rawCap ratio : ℕ} {count : Tensor → ℕ} (hcap : 0 < rawCap)
    (hraw : rawCap ≤ count .rawCache) (hcomp : ratio ≠ 0 → nComp ≤ count .attnCompCache)
    (hindex : ratio = 4 → nIndexComp ≤ count .indexCompCache)
    (hstate : ∀ t, t ≠ .rawCache → t ≠ .attnCompCache → t ≠ .indexCompCache → 0 < count t)
    {span : Tensor × ℕ} (h : span ∈ spans rawCap tokens rawLive ratio nComp nIndexComp) :
    span.2 < count span.1 := by
  simp only [spans, mem_append, mem_map, mem_range] at h
  rcases h with ⟨r, -, rfl⟩ | h
  · exact lt_of_lt_of_le (Nat.mod_lt _ hcap) hraw
  · split at h
    case isTrue => cases h
    case isFalse hratio =>
      simp only [mem_append, mem_map, mem_range, mem_cons, not_mem_nil, or_false] at h
      rcases h with (⟨r, hr, rfl⟩ | rfl | rfl) | h
      · exact lt_of_lt_of_le hr (hcomp hratio)
      · apply hstate <;> simp
      · apply hstate <;> simp
      · split at h
        case isFalse => cases h
        case isTrue hfour =>
          simp only [mem_append, mem_map, mem_range, mem_cons, not_mem_nil, or_false] at h
          rcases h with ⟨r, hr, rfl⟩ | rfl | rfl
          · exact lt_of_lt_of_le hr (hindex hfour)
          · apply hstate <;> simp
          · apply hstate <;> simp

theorem spans_lt (hcomp : nComp ≤ sh.layerCompCap c il)
    (hindex : nIndexComp ≤ sh.layerCompCap c il) {span : Tensor × ℕ}
    (h : span ∈ spans (sh.rawCap c) tokens rawLive (sh.compressRatio il) nComp nIndexComp) :
    span.2 < sh.rowCount c il span.1 := by
  refine spans_inside (sh.rawCap_pos c) le_rfl (fun _ => hcomp) (fun _ => hindex) ?_ h
  intro t hraw hcomp hindex
  cases t <;> simp_all [rowCount]

/-- The positions of fewer rows than the ring has stand in different rows of it. -/
theorem ring_injOn {rawCap first i j : ℕ} (hi : i < rawCap) (hj : j < rawCap)
    (h : (first + i) % rawCap = (first + j) % rawCap) : i = j := by
  have hmod : i % rawCap = j % rawCap := Nat.ModEq.add_left_cancel' first h
  rwa [Nat.mod_eq_of_lt hi, Nat.mod_eq_of_lt hj] at hmod

theorem spans_nodup {rawCap ratio : ℕ} (h : rawLive ≤ rawCap) :
    (spans rawCap tokens rawLive ratio nComp nIndexComp).Nodup := by
  have hraw : ((range rawLive).map
      (fun r => (Tensor.rawCache, (tokens - rawLive + r) % rawCap))).Nodup := by
    refine List.Nodup.map_on ?_ nodup_range
    intro i hi j hj hij
    have hi' := mem_range.mp hi
    have hj' := mem_range.mp hj
    exact ring_injOn (by omega) (by omega) (Prod.mk.inj hij).2
  have hrows (t : Tensor) (n : ℕ) : ((range n).map fun r => (t, r)).Nodup :=
    nodup_range.map fun i j hij => (Prod.mk.inj hij).2
  unfold spans
  split_ifs
  · simpa using hraw
  · simp only [nodup_append', hraw, hrows, true_and]
    simp [disjoint_left]
    rintro t r (⟨-, rfl⟩ | ⟨rfl, -⟩ | ⟨rfl, -⟩) <;> simp
  · simp only [nodup_append', hraw, hrows, true_and]
    simp [disjoint_left]

end Shape

end Ds4Studio.Payload
