import Ds4Studio.Lib.Reader
import Ds4Studio.Payload.Graph

/-!
Writing and restoring the rows of a slice of layers. A restore first reads what it
needs to refuse the payload; from the moment it touches the tensors the session
is not valid until the last row stands.
-/

namespace Ds4Studio.Payload

open LittleEndian Stateful Reader

def sessionMagic : ℕ := 0x34565344
def sessionVersion : ℕ := 2
def layerMagic : ℕ := 0x4c565344
def layerVersion : ℕ := 1

/-- Numbers as a payload spells them. -/
def words (ns : List ℕ) : Bytes := ns.flatMap (put 4)

/-- The layers of a slice, both ends included. -/
def layers (layerStart layerEnd : ℕ) : List ℕ := List.range' layerStart (layerEnd + 1 - layerStart)

/-- `ds4_layer_payload_range_valid`. -/
def rangeValid (sh : Shape) (layerStart layerEnd : ℕ) : Bool :=
  layerStart ≤ layerEnd && layerEnd < sh.nLayer

/-- A row of a slice: its layer and where it stands there. -/
abbrev Slot := ℕ × Tensor × ℕ

namespace Session

variable (sh : Shape) (s : Session)

/-- The rows of a slice in the order of the file. -/
def slots (il : List ℕ) : List Slot := il.flatMap fun i => (s.spans sh i).map fun span => (i, span)

def spell (slot : Slot) : Bytes := (s.layer slot.1).spell sh slot.2

/-- The tensor rows of a slice, where all of them stand inside their tensors. -/
def writeTensors (il : List ℕ) : Except String Bytes :=
  if (s.slots sh il).all fun slot => slot.2.2 < sh.rowCount s.caps slot.1 slot.2.1 then
    .ok ((s.slots sh il).flatMap (s.spell sh))
  else .error "session tensor is smaller than the payload"

def counts (il : List ℕ) : Bytes :=
  words (il.map fun i => (s.layer i).nComp) ++ words (il.map fun i => (s.layer i).nIndexComp)

def header : List ℕ :=
  [sessionMagic, sessionVersion, s.caps.ctxSize, s.caps.prefillCap, sh.rawCap s.caps,
    sh.rawWindow s.caps, sh.compCap s.caps, s.checkpoint.length, sh.nLayer, sh.headDim,
    sh.indexerHeadDim, sh.nVocab, s.rawLive sh]

/-- `ds4_session_save_payload` of a session on one node. -/
def savePayload : Except String Bytes := do
  if !s.checkpointValid then throw "session has no valid checkpoint to save"
  let tensors ← s.writeTensors sh (List.range sh.nLayer)
  return words (s.header sh) ++ words s.checkpoint ++ s.logits ++
    s.counts (List.range sh.nLayer) ++ tensors

def layerHeader (layerStart layerEnd : ℕ) : List ℕ :=
  [layerMagic, layerVersion, s.caps.ctxSize, s.caps.prefillCap, sh.rawCap s.caps,
    sh.rawWindow s.caps, sh.compCap s.caps, s.checkpoint.length, sh.nLayer, sh.headDim,
    sh.indexerHeadDim, layerStart, layerEnd, s.rawLive sh]

/-- `ds4_session_save_layer_payload`. -/
def saveLayerPayload (layerStart layerEnd : ℕ) : Except String Bytes := do
  if !s.checkpointValid || !rangeValid sh layerStart layerEnd then
    throw "invalid session layer payload save"
  let tensors ← s.writeTensors sh (layers layerStart layerEnd)
  return words (s.layerHeader sh layerStart layerEnd) ++ s.counts (layers layerStart layerEnd) ++
    tensors

end Session

/-- What a slice's payload says about its rows. -/
structure Shard where
  layerStart : ℕ
  tokens : ℕ
  rawLive : ℕ
  nComp : List ℕ
  nIndexComp : List ℕ

/-- The rows of some layers with their row counts, in the order of the file. -/
def rowSlots (sh : Shape) (rawCap tokens rawLive : ℕ) : List ℕ → List ℕ → List ℕ → List Slot
  | il :: ils, n :: ns, m :: ms =>
      ((Shape.spans rawCap tokens rawLive (sh.compressRatio il) n m).map fun span => (il, span)) ++
        rowSlots sh rawCap tokens rawLive ils ns ms
  | _, _, _ => []

/-- The rows of a shard in the order of the file, in a ring of `rawCap` rows. -/
def Shard.slots (sh : Shape) (rawCap : ℕ) (p : Shard) : List Slot :=
  rowSlots sh rawCap p.tokens p.rawLive (List.range' p.layerStart p.nComp.length) p.nComp
    p.nIndexComp

/-- The bytes of a layer in `session_payload_live_tensor_bytes` and
`ds4_session_layer_payload_bytes`. -/
def layerTensorBytes (sh : Shape) (rawLive il nComp nIndexComp : ℕ) : ℕ :=
  let ratio := sh.compressRatio il
  let raw := rawLive * sh.headDim * 4
  if ratio = 0 then raw
  else
    let comp := raw + nComp * sh.headDim * 4 + Shape.stateBytes sh.headDim ratio +
      Shape.stateBytes sh.headDim ratio
    if ratio = 4 then
      comp + nIndexComp * sh.indexerHeadDim * 4 + Shape.stateBytes sh.indexerHeadDim ratio +
        Shape.stateBytes sh.indexerHeadDim ratio
    else comp

/-- The front of a slice's payload: everything that can be refused before a tensor is
touched. -/
def readShard (sh : Shape) (s : Session) (nTokens layerStart layerEnd : ℕ) : Reader Shard := do
  reject (!rangeValid sh layerStart layerEnd) "invalid session layer payload load"
  let h ← readWords "session" 14
  reject (h.getD 0 0 != layerMagic || h.getD 1 0 != layerVersion)
    "unsupported session layer payload version"
  reject (h.getD 11 0 != layerStart || h.getD 12 0 != layerEnd)
    "KV shard layer range does not match requested worker"
  reject (s.caps.ctxSize < h.getD 2 0 || h.getD 7 0 != nTokens || s.caps.ctxSize ≤ h.getD 7 0)
    "KV shard does not fit current context"
  reject (h.getD 8 0 != sh.nLayer || h.getD 9 0 != sh.headDim || h.getD 10 0 != sh.indexerHeadDim)
    "KV shard was written for a different DS4 layout"
  reject (h.getD 5 0 != sh.rawWindow s.caps)
    "KV shard graph chunk layout does not match current runtime"
  let expected := if h.getD 7 0 < h.getD 5 0 then h.getD 7 0 else h.getD 5 0
  reject (h.getD 4 0 == 0 || h.getD 13 0 != expected || h.getD 4 0 < h.getD 13 0 ||
      sh.rawCap s.caps < h.getD 13 0)
    "KV shard raw ring layout does not match current context"
  reject (sh.compCap s.caps < h.getD 6 0)
    "KV shard compressed cache is larger than current context"
  let fits := (layers layerStart layerEnd).map fun il n =>
    decide (n ≤ h.getD 6 0) && decide (n ≤ sh.layerCompCap s.caps il)
  let nComp ← readChecked "session" "KV shard has invalid compressed row count" fits
  let nIndexComp ← readChecked "session" "KV shard has invalid indexer row count" fits
  return ⟨layerStart, h.getD 7 0, h.getD 13 0, nComp, nIndexComp⟩

/-- A restore in progress. `faults` says of each accelerator operation to come whether it
fails. -/
structure Restoring where
  input : Input
  session : Session
  faults : List Bool

abbrev Restore := EStateM String Restoring

namespace Restore

def read {α : Type} (m : Reader α) : Restore α :=
  zoom Restoring.input (fun i st => { st with input := i }) m

def operate (e : String) : Restore Unit := do
  let st ← get
  set { st with faults := st.faults.tail }
  reject (st.faults.headD false) e

/-- `payload_read_tensor_span` of one row. -/
def row (sh : Shape) (slot : Slot) : Restore Unit := do
  let st ← get
  reject (sh.rowCount st.session.caps slot.1 slot.2.1 ≤ slot.2.2)
    "session tensor is smaller than the payload"
  let b ← read (readBytes "session" (sh.rowBytes slot.1 slot.2.1))
  operate "failed to restore accelerator session tensor"
  modify fun st => { st with session := st.session.restore sh slot.1 slot.2 b }

/-- The tensors of a session change: its checkpoint and its drafts no longer hold. -/
def invalidate (s : Session) : Session :=
  { s with checkpointValid := false, mtpDraftValid := false, mtpNRaw := 0 }

/-- The session of a slice whose rows all stand. -/
def commit (tokens : List ℕ) (p : Shard) (s : Session) : Session :=
  { s with
    checkpoint := tokens
    layer := fun il =>
      if p.layerStart ≤ il ∧ il < p.layerStart + p.nComp.length then
        { s.layer il with
          nComp := p.nComp.getD (il - p.layerStart) 0
          nIndexComp := p.nIndexComp.getD (il - p.layerStart) 0 }
      else s.layer il
    checkpointValid := true
    mtpDraftValid := false
    mtpNRaw := 0 }

/-- `ds4_session_load_layer_payload`. -/
def layerPayload (sh : Shape) (tokens : List ℕ) (layerStart layerEnd : ℕ) : Restore Unit := do
  let st ← get
  let p ← read (readShard sh st.session tokens.length layerStart layerEnd)
  operate "failed to synchronize accelerator before KV shard restore"
  modify fun st => { st with session := invalidate st.session }
  (p.slots sh (sh.rawCap st.session.caps)).forM (row sh)
  let st ← get
  reject (st.input.remaining != 0) "KV shard has trailing payload bytes"
  operate "failed to synchronize accelerator after KV shard restore"
  modify fun st => { st with session := commit tokens p st.session }

end Restore

end Ds4Studio.Payload
