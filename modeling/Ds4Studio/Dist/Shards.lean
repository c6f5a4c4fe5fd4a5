import Ds4Studio.Payload.Slices

/-!
Session payloads of a cluster. A payload is put together from the shards of the route's
hops and split into shards again; its format is the one of a session on a single node.
-/

namespace Ds4Studio.Dist

open LittleEndian Stateful Reader Payload

/-- The numbers in the header of a payload or a shard. -/
structure Layout where
  ctx : ℕ
  prefillCap : ℕ
  rawCap : ℕ
  rawWindow : ℕ
  compCap : ℕ
  tokenCount : ℕ
  nLayers : ℕ
  headDim : ℕ
  indexerHeadDim : ℕ
  vocab : ℕ
  rawLive : ℕ

namespace Layout

def ofSessionHeader (h : List ℕ) : Layout where
  ctx := h.getD 2 0
  prefillCap := h.getD 3 0
  rawCap := h.getD 4 0
  rawWindow := h.getD 5 0
  compCap := h.getD 6 0
  tokenCount := h.getD 7 0
  nLayers := h.getD 8 0
  headDim := h.getD 9 0
  indexerHeadDim := h.getD 10 0
  vocab := h.getD 11 0
  rawLive := h.getD 12 0

def ofLayerHeader (vocab : ℕ) (h : List ℕ) : Layout :=
  { ofSessionHeader h with vocab := vocab, rawLive := h.getD 13 0 }

/-- What `dist_kv_write_session_header` writes. -/
def sessionHeader (l : Layout) : List ℕ :=
  [sessionMagic, sessionVersion, l.ctx, l.prefillCap, l.rawCap, l.rawWindow, l.compCap,
    l.tokenCount, l.nLayers, l.headDim, l.indexerHeadDim, l.vocab, l.rawLive]

/-- What `dist_kv_write_layer_header` writes in front of the row counts. -/
def layerHeader (l : Layout) (layerStart layerEnd : ℕ) : List ℕ :=
  [layerMagic, layerVersion, l.ctx, l.prefillCap, l.rawCap, l.rawWindow, l.compCap,
    l.tokenCount, l.nLayers, l.headDim, l.indexerHeadDim, layerStart, layerEnd, l.rawLive]

/-- `dist_kv_layout_matches`: every number but the size of the vocabulary. -/
def layoutMatches (a b : Layout) : Bool :=
  a.ctx == b.ctx && a.prefillCap == b.prefillCap && a.rawCap == b.rawCap &&
    a.rawWindow == b.rawWindow && a.compCap == b.compCap && a.tokenCount == b.tokenCount &&
    a.nLayers == b.nLayers && a.headDim == b.headDim && a.indexerHeadDim == b.indexerHeadDim &&
    a.rawLive == b.rawLive

/-- `dist_kv_raw_live_valid`. -/
def rawLiveValid (l : Layout) : Bool :=
  l.rawWindow != 0 && l.rawCap != 0 &&
    l.rawLive == (if l.tokenCount < l.rawWindow then l.tokenCount else l.rawWindow) &&
    decide (l.rawLive ≤ l.rawCap)

end Layout

/-- `dist_u64_add`. -/
def u64Add (a b : ℕ) : Option ℕ := if a + b < 2 ^ 64 then some (a + b) else none

/-- `dist_u64_mul`. -/
def u64Mul (a b : ℕ) : Option ℕ := if a * b < 2 ^ 64 then some (a * b) else none

/-- `dist_kv_state_bytes`. -/
def kvStateBytes (ratio headDim : ℕ) : Option ℕ := do
  let coff := if ratio = 4 then 2 else 1
  let n ← u64Mul coff headDim
  let n ← u64Mul n coff
  let n ← u64Mul n ratio
  u64Mul n 4

/-- The bytes of `n` rows of `dim` floats. -/
def kvRowBytes (n dim : ℕ) : Option ℕ := do
  let n ← u64Mul n dim
  u64Mul n 4

/-- `dist_kv_layer_tensor_bytes`. -/
def kvLayerTensorBytes (sh : Shape) (l : Layout) (il nComp nIndexComp : ℕ) : Option ℕ := do
  let bytes ← kvRowBytes l.rawLive l.headDim
  let ratio := sh.compressRatio il
  if ratio = 0 then return bytes
  let bytes ← u64Add bytes (← kvRowBytes nComp l.headDim)
  let state ← kvStateBytes ratio l.headDim
  let bytes ← u64Add (← u64Add bytes state) state
  if ratio ≠ 4 then return bytes
  let bytes ← u64Add bytes (← kvRowBytes nIndexComp l.indexerHeadDim)
  let state ← kvStateBytes ratio l.indexerHeadDim
  u64Add (← u64Add bytes state) state

/-- The layers a coordinator serves itself and those of the hops behind it. -/
structure Route where
  localStart : ℕ
  localEnd : ℕ
  entry : List (ℕ × ℕ)

namespace Route

/-- The layer ranges of the shards: the coordinator's, then those of the hops. -/
def shards (r : Route) : List (ℕ × ℕ) := (r.localStart, r.localEnd) :: r.entry

/-- The layer behind the last hop, where the hops follow each other without a gap. -/
def follow (nLayers : ℕ) : ℕ → List (ℕ × ℕ) → Option ℕ
  | next, [] => some next
  | next, (a, b) :: rest =>
      if a ≠ next ∨ b < a ∨ nLayers ≤ b then none else follow nLayers (b + 1) rest

/-- `dist_kv_route_validate`. -/
def validate (nLayers : ℕ) (r : Route) : Except String Unit :=
  if nLayers = 0 ∨ r.localStart ≠ 0 ∨ nLayers ≤ r.localEnd then
    .error "distributed KV route does not start at layer 0"
  else
    match follow nLayers (r.localEnd + 1) r.entry with
    | none => .error "distributed KV route is not contiguous"
    | some next =>
      if next ≠ nLayers then .error "distributed KV route does not cover all layers" else .ok ()

end Route

/-- `dist_token_hash_prefix`. -/
def tokenHash (tokens : List ℕ) : UInt64 :=
  (words tokens).foldl (fun h b => (h ^^^ b.toUInt64) * 1099511628211) 1469598103934665603

/-- A hop: the session it keeps for the coordinator's session, if it has one, and the session
it would create. -/
structure Worker where
  fresh : Session
  session : Option Session

/-- `dist_worker_get_session_locked`. -/
def Worker.current (w : Worker) : Session := w.session.getD w.fresh

/-- A coordinator's session and the hops of its route. -/
structure Cluster where
  route : Route
  owner : Session
  worker : ℕ → Worker

section Save

variable (sh : Shape)

/-- `dist_worker_handle_snapshot_save`. -/
def workerSave (tokens : List ℕ) (worker : Option Session) (layerStart layerEnd : ℕ) :
    Except String Bytes :=
  match worker with
  | none => .error "worker has no distributed session to snapshot"
  | some w =>
    if w.caps.ctxSize < tokens.length then
      .error "snapshot save request does not match worker state"
    else if w.checkpoint.length ≠ tokens.length then
      .error "worker snapshot token count mismatch"
    else if tokenHash w.checkpoint ≠ tokenHash tokens then
      .error "worker snapshot token hash mismatch"
    else w.saveLayerPayload sh layerStart layerEnd

/-- The shard of the `i`-th hop, the coordinator being hop 0. -/
def Cluster.saveShard (c : Cluster) (i layerStart layerEnd : ℕ) : Except String Bytes :=
  match i with
  | 0 => c.owner.saveLayerPayload sh layerStart layerEnd
  | i + 1 => workerSave sh c.owner.checkpoint (c.worker i).session layerStart layerEnd

/-- The bytes the layers of a slice take in all. -/
def kvTensorBytes (l : Layout) : List ℕ → List ℕ → List ℕ → Option ℕ
  | il :: ils, n :: ns, m :: ms => do
    u64Add (← kvLayerTensorBytes sh l il n m) (← kvTensorBytes l ils ns ms)
  | _, _, _ => some 0

/-- What the front of a shard says, and the tensor rows behind it. -/
structure Parsed where
  layout : Layout
  nComp : List ℕ
  nIndexComp : List ℕ
  tensors : Bytes

/-- `dist_kv_parse_layer_payload`; `known` is the layout of the shards before. -/
def parseLayerPayload (known : Option Layout) (layerStart layerEnd : ℕ) : Reader Parsed := do
  let h ← readWords "distributed" 14
  reject (h.getD 0 0 != layerMagic || h.getD 1 0 != layerVersion)
    "unsupported distributed KV layer payload"
  let got := Layout.ofLayerHeader sh.nVocab h
  reject (h.getD 11 0 != layerStart || h.getD 12 0 != layerEnd || h.getD 12 0 < h.getD 11 0 ||
      got.nLayers ≤ h.getD 12 0)
    "distributed KV shard range mismatch"
  reject (got.nLayers != sh.nLayer || !got.rawLiveValid) "distributed KV shard layout is invalid"
  reject (known.any fun layout => !layout.layoutMatches got)
    "distributed KV shards use different layouts"
  let fits := (layers layerStart layerEnd).map fun _ n => decide (n ≤ got.compCap)
  let nComp ← readChecked "distributed"
    "distributed KV shard has invalid compressed row count" fits
  let nIndexComp ← readChecked "distributed"
    "distributed KV shard has invalid indexer row count" fits
  let i ← get
  match kvTensorBytes sh got (layers layerStart layerEnd) nComp nIndexComp with
  | none => throw "distributed KV shard tensor size overflow"
  | some bytes =>
    reject (i.remaining != bytes) "distributed KV shard tensor byte count mismatch"
    return ⟨known.getD got, nComp, nIndexComp, i.stream.take i.remaining⟩

/-- The shards of the hops from the `i`-th on, in the order of their layers. -/
def Cluster.gather (c : Cluster) : ℕ → Option Layout → List (ℕ × ℕ) → Except String (List Parsed)
  | _, _, [] => .ok []
  | i, known, (a, b) :: rest => do
    let shard ← c.saveShard sh i a b
    if shard = [] then throw "distributed KV shard is empty"
    match parseLayerPayload sh known a b (Input.ofBytes shard) with
    | .error e _ => throw e
    | .ok p _ =>
      let ps ← c.gather (i + 1) (some p.layout) rest
      return p :: ps

/-- `ds4_dist_session_save_payload`. -/
def Cluster.savePayload (c : Cluster) : Except String Bytes := do
  c.route.validate sh.nLayer
  let ps ← c.gather sh 0 none c.route.shards
  match ps.getLast? with
  | none => throw "distributed KV shard metadata mismatch"
  | some last =>
    if last.layout.tokenCount ≠ c.owner.checkpoint.length ∨ last.layout.nLayers ≠ sh.nLayer ∨
        last.layout.vocab ≠ sh.nVocab then
      throw "distributed KV shard metadata mismatch"
    return words last.layout.sessionHeader ++ words c.owner.checkpoint ++ c.owner.logits ++
      words (ps.flatMap Parsed.nComp) ++ words (ps.flatMap Parsed.nIndexComp) ++
      ps.flatMap Parsed.tensors

end Save

/-- What a load meets outside the coordinator's session: whether a route is up, whether
memory and the temporary file of each shard can be had, and what each hop makes of a shard. -/
structure Env (W : Type) where
  routeReady : Except String Unit
  allocates : Bool
  staged : ℕ → Except String Unit
  restore : ℕ → List ℕ → Bytes → W → Except String Unit × W

/-- A load in progress. -/
structure Loading (W : Type) where
  input : Input
  owner : Session
  faults : List Bool
  worker : ℕ → W

/-- What stands in front of the tensor rows of a payload. -/
structure Front where
  layout : Layout
  tokens : List ℕ
  logits : Bytes
  nComp : List ℕ
  nIndexComp : List ℕ

section Load

variable (sh : Shape)

/-- The part of `ds4_dist_session_load_payload` before the first shard. -/
def readFront (allocates : Bool) (ctxSize : ℕ) : Reader Front := do
  let h ← readWords "distributed" 13
  reject (h.getD 0 0 != sessionMagic || h.getD 1 0 != sessionVersion)
    "unsupported DS4 KV payload version"
  let layout := Layout.ofSessionHeader h
  reject (layout.nLayers != sh.nLayer || ctxSize < layout.ctx || ctxSize ≤ layout.tokenCount ||
      layout.vocab != sh.nVocab || !layout.rawLiveValid)
    "DS4 KV payload does not match current distributed runtime"
  reject (!allocates) "out of memory loading distributed KV payload"
  let tokens ← readChecked "distributed" "distributed KV payload token is outside vocabulary"
    (List.replicate layout.tokenCount fun token => decide (token < sh.nVocab))
  let logits ← readBytes "distributed" (layout.vocab * 4)
  let fits := List.replicate layout.nLayers fun n => decide (n ≤ layout.compCap)
  let nComp ← readChecked "distributed" "DS4 KV payload has invalid compressed row count" fits
  let nIndexComp ← readChecked "distributed" "DS4 KV payload has invalid indexer row count" fits
  return ⟨layout, tokens, logits, nComp, nIndexComp⟩

/-- The row counts of a slice's layers. -/
def slice (layerStart layerEnd : ℕ) (counts : List ℕ) : List ℕ :=
  (counts.drop layerStart).take (layerEnd + 1 - layerStart)

def Front.shardFront (f : Front) (layerStart layerEnd : ℕ) : Bytes :=
  words (f.layout.layerHeader layerStart layerEnd) ++ words (slice layerStart layerEnd f.nComp) ++
    words (slice layerStart layerEnd f.nIndexComp)

/-- The tensor rows of a slice's layers, copied layer by layer. -/
def copyLayers (l : Layout) : List ℕ → List ℕ → List ℕ → Reader Bytes
  | il :: ils, n :: ns, m :: ms =>
    match kvLayerTensorBytes sh l il n m with
    | none => throw "distributed KV layer byte count overflow"
    | some bytes => do
      let b ← readBytes "distributed" bytes
      let rest ← copyLayers l ils ns ms
      return b ++ rest
  | _, _, _ => return []

/-- `dist_prepare_shard_from_session_payload`. -/
def prepareShard (staged : Except String Unit) (f : Front) (layerStart layerEnd : ℕ) :
    Reader Bytes := do
  match staged with
  | .error e => throw e
  | .ok () =>
    let tensors ← copyLayers sh f.layout (layers layerStart layerEnd)
      (slice layerStart layerEnd f.nComp) (slice layerStart layerEnd f.nIndexComp)
    return f.shardFront layerStart layerEnd ++ tensors

variable {W : Type}

def Loading.read {α : Type} (m : Reader α) : EStateM String (Loading W) α :=
  zoom Loading.input (fun i st => { st with input := i }) m

/-- The coordinator restores its own shard. -/
def restoreOwner (tokens : List ℕ) (shard : Bytes) (layerStart layerEnd : ℕ) :
    EStateM String (Loading W) Unit :=
  zoom (fun st => (⟨Input.ofBytes shard, st.owner, st.faults⟩ : Restoring))
    (fun r st => { st with owner := r.session, faults := r.faults })
    (Restore.layerPayload sh tokens layerStart layerEnd)

def raise : Except String Unit → EStateM String (Loading W) Unit
  | .ok () => return ()
  | .error e => throw e

/-- A hop is sent its shard and answers. -/
def restoreRemote (env : Env W) (i : ℕ) (tokens : List ℕ) (shard : Bytes) :
    EStateM String (Loading W) Unit := do
  let st ← get
  let answer := env.restore i tokens shard (st.worker i)
  set { st with worker := Function.update st.worker i answer.2 }
  raise answer.1

/-- One round of the loop over the shards. -/
def loadShard (env : Env W) (f : Front) (i : ℕ) (range : ℕ × ℕ) :
    EStateM String (Loading W) Unit := do
  let shard ← Loading.read (prepareShard sh (env.staged i) f range.1 range.2)
  match i with
  | 0 => restoreOwner sh f.tokens shard range.1 range.2
  | i + 1 => restoreRemote env i f.tokens shard

def loadShards (env : Env W) (f : Front) : ℕ → List (ℕ × ℕ) → EStateM String (Loading W) Unit
  | _, [] => return ()
  | i, range :: rest => do
    loadShard sh env f i range
    loadShards env f (i + 1) rest

/-- `ds4_dist_session_load_payload`. -/
def loadPayload (env : Env W) (route : Route) : EStateM String (Loading W) Unit := do
  raise env.routeReady
  raise (route.validate sh.nLayer)
  let st ← get
  let f ← Loading.read (readFront sh env.allocates st.owner.caps.ctxSize)
  loadShards sh env f 0 route.shards
  let st ← get
  reject (st.input.remaining != 0) "DS4 KV payload has trailing bytes"
  modify fun st => { st with owner := { st.owner with logits := f.logits } }

end Load

section Hops

variable (sh : Shape)

/-- `dist_worker_handle_snapshot_load`, on a machine where files and memory can be had. -/
def workerRestore (range : ℕ × ℕ) (tokens : List ℕ) (shard : Bytes) (w : Worker) :
    Except String Unit × Worker :=
  if tokens.any fun token => sh.nVocab ≤ token then
    (.error "snapshot token id is outside the model vocabulary", w)
  else if w.current.caps.ctxSize < tokens.length then
    (.error "snapshot load request does not match worker state", w)
  else
    match Restore.layerPayload sh tokens range.1 range.2
        ⟨Input.ofBytes shard, w.current, []⟩ with
    | .ok () r => (.ok (), { w with session := some r.session })
    | .error e r => (.error e, { w with session := some r.session })

/-- A route that is up, all of whose machines and connections work. -/
def Route.env (r : Route) : Env Worker where
  routeReady := .ok ()
  allocates := true
  staged _ := .ok ()
  restore k := workerRestore sh (r.entry.getD k (0, 0))

/-- A load into the sessions of a cluster. -/
def Cluster.loading (c : Cluster) (payload : Bytes) : Loading Worker where
  input := Input.ofBytes payload
  owner := c.owner
  faults := []
  worker := c.worker

/-- The cluster once its hops have taken a payload, where they take it. -/
def Cluster.loadPayload (c : Cluster) (payload : Bytes) : Except String Cluster :=
  match Dist.loadPayload sh (c.route.env sh) c.route (c.loading payload) with
  | .ok () st => .ok { c with owner := st.owner, worker := st.worker }
  | .error e _ => .error e

end Hops

end Ds4Studio.Dist
