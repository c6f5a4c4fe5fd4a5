import Ds4Studio.Dist.Fronts

/-!
What a failed load leaves of the coordinator's session. The coordinator restores its own
shard first and its session is valid from then on, with the new tokens and the old
logits, while the shards of the hops and the end of the payload are still to come.
-/

namespace Ds4Studio.Dist

open LittleEndian Stateful Reader Payload

variable {sh : Shape} {W : Type}

/-- The coordinator's own shard, `n` bytes at the front of `i`, is restored: the route is
up, the payload's front `f` is accepted and so is the shard, and nothing fails on the way. -/
structure OwnerRestored (sh : Shape) (env : Env W) (route : Route) (st : Loading W) (f : Front)
    (i : Input) (n : ℕ) : Prop where
  ready : env.routeReady = .ok ()
  valid : route.validate sh.nLayer = .ok ()
  front : Runs (readFront sh env.allocates st.owner.caps.ctxSize) st.input f i
  staged : env.staged 0 = .ok ()
  bytes : f.rowBytes sh (route.localStart, route.localEnd) = some n
  remaining : n ≤ i.remaining
  stream : n ≤ i.stream.length
  accepted : f.accepted sh st.owner (route.localStart, route.localEnd)
  steady : Restore.Steady
    (((f.shard (route.localStart, route.localEnd)).slots sh (sh.rawCap st.owner.caps)).length + 2)
    st.faults

/-- Everything behind the coordinator's shard succeeds: the hops from the `k`-th on are sent
the rows at the front of the payload's rest and restore them, and nothing is left over. -/
def RestTaken (sh : Shape) (env : Env W) (f : Front) (worker : ℕ → W) :
    ℕ → List (ℕ × ℕ) → Input → Prop
  | _, [], i => i.remaining = 0
  | k, range :: rest, i => env.staged (k + 1) = .ok () ∧
      ∃ n, f.rowBytes sh range = some n ∧ n ≤ i.remaining ∧ n ≤ i.stream.length ∧
        (env.restore k f.tokens (f.shardFront range.1 range.2 ++ i.stream.take n)
          (worker k)).1 = .ok () ∧
        RestTaken sh env f worker (k + 1) rest ⟨i.stream.drop n, i.remaining - n⟩

/-- The coordinator's session once its own shard stands. -/
def ownerRestored (sh : Shape) (route : Route) (s : Session) (f : Front) (rows : Bytes) : Session :=
  Restore.restored sh f.tokens (f.shard (route.localStart, route.localEnd)) rows s

section Loading

variable {env : Env W} {f : Front}

theorem keeps_loadingRead {α : Type} (m : Reader α) :
    Keeps (fun st st' : Loading W => st'.owner = st.owner) (Loading.read m) :=
  keeps_zoom fun _ _ => rfl

variable {st : Loading W}

theorem ends_raise {x : Except String Unit} {Q : Unit → Loading W → Prop} :
    Ends (raise x) st Q ↔ x = .ok () ∧ Q () st := by
  cases x with
  | ok u =>
    have hrun : Runs (raise (.ok ())) st () st := rfl
    simp [ends_iff hrun]
  | error e =>
    have hfails : Fails (raise (.error e)) st := ⟨e, st, rfl⟩
    simpa using not_ends hfails

theorem keeps_raise (x : Except String Unit) : Keeps Eq (raise x : EStateM String (Loading W) _) := by
  intro st
  cases x <;> rfl

theorem keeps_restoreRemote (k : ℕ) (tokens : List ℕ) (shard : Bytes) :
    Keeps (fun st st' : Loading W => st'.owner = st.owner)
      (restoreRemote env k tokens shard) := by
  intro st
  change (after (raise _) _).owner = st.owner
  rw [← keeps_raise]

theorem keeps_loadShards (k : ℕ) (ranges : List (ℕ × ℕ)) :
    Keeps (fun st st' : Loading W => st'.owner = st.owner)
      (loadShards sh env f (k + 1) ranges) := by
  have htrans : ∀ {a b c : Loading W}, b.owner = a.owner → c.owner = b.owner →
      c.owner = a.owner := fun h h' => h'.trans h
  induction ranges generalizing k with
  | nil => exact fun _ => rfl
  | cons range rest ih =>
    refine Keeps.bind htrans ?_ fun _ => ih (k + 1)
    exact Keeps.bind htrans (keeps_loadingRead _) fun shard => keeps_restoreRemote k _ shard

/-- The state once a hop has answered. -/
def answered (env : Env W) (k : ℕ) (tokens : List ℕ) (shard : Bytes) (st : Loading W) : Loading W :=
  let answer := env.restore k tokens shard (st.worker k)
  { st with worker := Function.update st.worker k answer.2 }

theorem ends_restoreRemote {k : ℕ} {tokens : List ℕ} {shard : Bytes} {Q : Unit → Loading W → Prop} :
    Ends (restoreRemote env k tokens shard) st Q ↔
      (env.restore k tokens shard (st.worker k)).1 = .ok () ∧
        Q () (answered env k tokens shard st) := by
  have hset : Runs (set (answered env k tokens shard st) : EStateM String (Loading W) PUnit) st ⟨⟩
      (answered env k tokens shard st) := rfl
  change Ends (get >>= fun st => set (answered env k tokens shard st) >>= fun _ =>
    raise (env.restore k tokens shard (st.worker k)).1) st Q ↔ _
  rw [ends_runs_bind (runs_get st), ends_runs_bind hset, ends_raise]

variable {ranges : List (ℕ × ℕ)}

/-- The hops' shards are restored and the payload ends there exactly if the rest is taken. -/
theorem ends_rest {k : ℕ} {worker : ℕ → W} (hworker : ∀ j, k ≤ j → st.worker j = worker j) :
    (Ends (loadShards sh env f (k + 1) ranges) st fun _ st' => st'.input.remaining = 0) ↔
      RestTaken sh env f worker k ranges st.input := by
  induction ranges generalizing k st with
  | nil => exact ends_iff (runs_pure _ _)
  | cons range rest ih =>
    unfold loadShards loadShard Loading.read RestTaken
    rw [ends_bind, ends_bind, ends_zoom, ends_prepareShard]
    refine and_congr_right fun _ => exists_congr fun n => ?_
    refine and_congr_right fun _ => and_congr_right fun _ => and_congr_right fun _ => ?_
    rw [ends_restoreRemote, hworker k le_rfl]
    refine and_congr_right fun _ => ?_
    refine ih fun j hj => ?_
    simp only [answered]
    rw [Function.update_of_ne (by omega), hworker j (by omega)]

/-- The coordinator's shard is restored exactly if it is there, accepted and complete. -/
theorem ends_loadShard_owner (env : Env W) (hf : f.Sound sh) {range : ℕ × ℕ}
    (hle : range.1 ≤ range.2) (hlt : range.2 < sh.nLayer) {Q : Input → Session → (ℕ → W) → Prop} :
    Ends (loadShard sh env f 0 range) st
        (fun _ st' => Q st'.input st'.owner st'.worker) ↔
      env.staged 0 = .ok () ∧ ∃ n, f.rowBytes sh range = some n ∧ n ≤ st.input.remaining ∧
        n ≤ st.input.stream.length ∧ f.accepted sh st.owner range ∧
        Restore.Steady (((f.shard range).slots sh (sh.rawCap st.owner.caps)).length + 2) st.faults ∧
        Q ⟨st.input.stream.drop n, st.input.remaining - n⟩
          (Restore.restored sh f.tokens (f.shard range) (st.input.stream.take n) st.owner)
          st.worker := by
  have hn := slice_length (hf.nComp_length.symm ▸ hlt) hle
  have hm := slice_length (hf.nIndexComp_length.symm ▸ hlt) hle
  have hlayer := sh.nLayer_lt
  unfold loadShard Loading.read restoreOwner
  rw [ends_bind, ends_zoom, ends_prepareShard]
  refine and_congr_right fun _ => exists_congr fun n => and_congr_right fun hbytes => ?_
  refine and_congr_right fun _ => and_congr_right fun hstream => ?_
  rw [ends_zoom]
  rw [Front.shardFront, ends_restoreShard (Q := fun s =>
      Q ⟨st.input.stream.drop n, st.input.remaining - n⟩ s st.worker) hf.small (by omega) hle hn hm
    (fun k hk => hf.nComp_lt k (mem_slice hk)) fun k hk => hf.nIndexComp_lt k (mem_slice hk)]
  refine and_congr_right fun hacc => ?_
  have hsize : n = sizeOf sh ((f.shard range).slots sh (sh.rawCap st.owner.caps)) := by
    rw [Front.shard, shardOf_slots hn]
    exact sliceBytes_eq hacc.headDim_eq hacc.indexerHeadDim_eq _ hbytes
  rw [List.length_take, Nat.min_eq_left hstream]
  exact ⟨fun h => h.2, fun h => ⟨hsize.symm, h⟩⟩

/-- A failure on the coordinator's shard leaves its session as it was, or not valid. -/
theorem leaves_loadShard_owner {range : ℕ × ℕ} (st : Loading W) :
    Leaves (loadShard sh env f 0 range) st fun st' =>
      st'.owner = st.owner ∨ st'.owner.checkpointValid = false := by
  refine ((keeps_loadingRead _).leaves fun _ h => .inl h).bind fun shard st₁ hread => ?_
  have h₁ : st₁.owner = st.owner := (keeps_loadingRead _).runs hread
  refine leaves_zoom ?_
  intro hfails
  rcases Restore.layerPayload_leaves _ hfails with h | h
  · exact .inl (h.trans h₁)
  · exact .inr h

/-- The part of the load behind the coordinator's shard. -/
def afterOwner (sh : Shape) (env : Env W) (f : Front) (ranges : List (ℕ × ℕ)) :
    EStateM String (Loading W) Unit := do
  loadShards sh env f 1 ranges
  let st ← get
  reject (st.input.remaining != 0) "DS4 KV payload has trailing bytes"
  modify fun st => { st with owner := { st.owner with logits := f.logits } }

theorem ends_afterOwner (Q : Session → (ℕ → W) → Prop) :
    Ends (afterOwner sh env f ranges) st (fun _ st' => Q st'.owner st'.worker) ↔
      Ends (loadShards sh env f 1 ranges) st fun _ st' => st'.input.remaining = 0 ∧
        Q { st'.owner with logits := f.logits } st'.worker := by
  unfold afterOwner
  simp only [ends_bind, ends_iff (runs_get _), ends_reject, ends_iff (runs_modify _ _),
    bne_eq_false_iff_eq]

theorem afterOwner_fails_iff :
    Fails (afterOwner sh env f ranges) st ↔ ¬ RestTaken sh env f st.worker 0 ranges st.input := by
  rw [fails_iff, ← ends_rest (fun _ _ => rfl), ends_afterOwner fun _ _ => True]
  simp only [and_true]

theorem afterOwner_leaves (st : Loading W) :
    Leaves (afterOwner sh env f ranges) st fun st' => st'.owner = st.owner := by
  refine ((keeps_loadShards 0 ranges).leaves fun _ h => h).bind fun _ st₁ hrun => ?_
  have h₁ : st₁.owner = st.owner := (keeps_loadShards 0 ranges).runs hrun
  refine (leaves_of_runs (runs_get st₁)).bind fun _ st₂ hget => ?_
  obtain ⟨rfl, rfl⟩ := hget.unique (runs_get st₁)
  refine ((keeps_reject (R := Eq) (fun _ => rfl) _ _).leaves fun _ h => ?_).bind fun _ st₃ _ => ?_
  · exact h ▸ h₁
  · exact leaves_of_runs (runs_modify _ st₃)

end Loading

section Failure

variable {env : Env W} {route : Route} {st : Loading W}

/-- Behind the coordinator's shard, the load goes on with the new tokens in a valid session. -/
theorem loadPayload_eq {f : Front} {i : Input} {n : ℕ} (h : OwnerRestored sh env route st f i n) :
    ∃ st', loadPayload sh env route st = afterOwner sh env f route.entry st' ∧
      st'.input = ⟨i.stream.drop n, i.remaining - n⟩ ∧ st'.worker = st.worker ∧
      st'.owner = ownerRestored sh route st.owner f (i.stream.take n) := by
  obtain ⟨hstart, hend, -⟩ := validate_ok h.valid
  have hready : Runs (raise env.routeReady) st () st := by rw [h.ready]; rfl
  have hvalid : Runs (raise (route.validate sh.nLayer)) st () st := by rw [h.valid]; rfl
  have hread : Runs (Loading.read (readFront sh env.allocates st.owner.caps.ctxSize)) st f
      { st with input := i } := zoom_runs h.front
  let range := (route.localStart, route.localEnd)
  have hle : range.1 ≤ range.2 := by simp [range, hstart]
  obtain ⟨_, st', hrun, hin, how, hwork⟩ : Ends (loadShard sh env f 0 range)
      { st with input := i } fun _ st' => st'.input = ⟨i.stream.drop n, i.remaining - n⟩ ∧
        st'.owner = ownerRestored sh route st.owner f (i.stream.take n) ∧
        st'.worker = st.worker := by
    refine (ends_loadShard_owner env (readFront_sound h.front) hle hend
      (Q := fun j s w => j = ⟨i.stream.drop n, i.remaining - n⟩ ∧
        s = ownerRestored sh route st.owner f (i.stream.take n) ∧ w = st.worker)).mpr ?_
    exact ⟨h.staged, n, h.bytes, h.remaining, h.stream, h.accepted, h.steady, rfl, rfl, rfl⟩
  refine ⟨st', ?_, hin, hwork, how⟩
  unfold loadPayload
  rw [bind_run hready, bind_run hvalid, bind_run (runs_get st), bind_run hread]
  change (((loadShard sh env f 0 (route.localStart, route.localEnd)) >>= fun _ =>
    loadShards sh env f 1 route.entry) >>= _) _ = _
  rw [bind_assoc, bind_run hrun]
  rfl

/-- A coordinator that can take a node's layers restores its shard of the node's payload,
unless something fails on the way. -/
theorem ownerRestored_node {node : Session} (hs : node.Fits sh)
    (hin : st.input = Input.ofBytes (nodePayload sh node)) (htakes : Takes sh node st.owner)
    (hsteady : st.faults = []) (hready : env.routeReady = .ok ())
    (halloc : env.allocates = true) (hstaged : env.staged 0 = .ok ())
    (hvalid : route.validate sh.nLayer = .ok ()) :
    OwnerRestored sh env route st (nodeFront sh node)
      (Input.ofBytes (node.rows sh (List.range sh.nLayer)))
      (node.rows sh (layers route.localStart route.localEnd)).length := by
  obtain ⟨hlayers, hranges⟩ := Route.shards_layers hvalid
  obtain ⟨hle, hlt⟩ := hranges (route.localStart, route.localEnd) (List.mem_cons_self ..)
  have hlen : (node.rows sh (layers route.localStart route.localEnd)).length ≤
      (node.rows sh (List.range sh.nLayer)).length := by
    rw [← hlayers, Route.shards, List.flatMap_cons, Session.rows_append, List.length_append]
    exact Nat.le_add_right _ _
  have hfront : Ends (readFront sh env.allocates st.owner.caps.ctxSize) st.input fun f i =>
      f = nodeFront sh node ∧ i = Input.ofBytes (node.rows sh (List.range sh.nLayer)) := by
    rw [halloc, hin, ends_readFront_node hs]
    exact ⟨⟨htakes.ctxSize_le, htakes.checkpoint_lt⟩, rfl, rfl⟩
  exact {
    ready := hready
    valid := hvalid
    front := hfront.runs
    staged := hstaged
    bytes := @nodeFront_rowBytes sh node (route.localStart, route.localEnd) hle hlt hs
    remaining := hlen
    stream := hlen
    accepted := (nodeFront_accepted hle hlt hs).mpr htakes
    steady := by simp [hsteady, Restore.Steady] }

/-- Until the coordinator's shard stands, a failure leaves its session as it was, or not
valid. -/
theorem leaves_of_not_ownerRestored (h : ¬ ∃ f i n, OwnerRestored sh env route st f i n) :
    Leaves (loadPayload sh env route) st fun st' =>
      st'.owner = st.owner ∨ st'.owner.checkpointValid = false := by
  have hraise (x : Except String Unit) : Leaves (raise x) st fun st' =>
      st'.owner = st.owner ∨ st'.owner.checkpointValid = false :=
    (keeps_raise x).leaves fun st' heq => .inl (by rw [← heq])
  have hok {x : Except String Unit} {s t : Loading W} (hx : Runs (raise x) s () t) : x = .ok () :=
    (ends_raise (Q := fun _ _ => True).mp ⟨(), t, hx, trivial⟩).1
  refine (hraise _).bind fun _ st₁ hready => ?_
  obtain rfl := (keeps_raise _).runs hready
  refine (hraise _).bind fun _ st₁ hvalid => ?_
  obtain rfl := (keeps_raise _).runs hvalid
  refine (leaves_of_runs (runs_get st)).bind fun _ st₁ hget => ?_
  obtain ⟨rfl, rfl⟩ := hget.unique (runs_get st)
  refine ((keeps_loadingRead _).leaves fun _ h => .inl h).bind fun f st₂ hread => ?_
  have hends : Ends (Loading.read (readFront sh env.allocates st₁.owner.caps.ctxSize)) st₁
      fun f' st' => f' = f ∧ st' = st₂ := ⟨f, st₂, hread, rfl, rfl⟩
  obtain ⟨_, i, hfront, rfl, rfl⟩ := ends_zoom.mp hends
  change Leaves ((loadShard sh env _ 0 (route.localStart, route.localEnd) >>= fun _ =>
    loadShards sh env _ 1 route.entry) >>= _) _ _
  rw [bind_assoc]
  refine (leaves_loadShard_owner _).bind fun _ st₃ hshard => ?_
  obtain ⟨hstart, hend, -⟩ := validate_ok (hok hvalid)
  let range := (route.localStart, route.localEnd)
  have hle : range.1 ≤ range.2 := by simp [range, hstart]
  obtain ⟨hstaged, n, hbytes, hr, hs, hacc, hsteady, -⟩ :=
    (ends_loadShard_owner env (readFront_sound hfront) hle hend (Q := fun _ _ _ => True)).mp
      ⟨(), st₃, hshard, trivial⟩
  exact absurd ⟨_, i, n, hok hready, hok hvalid, hfront, hstaged, hbytes, hr, hs, hacc, hsteady⟩ h

/-- Once the coordinator's shard stands, the load fails exactly if the rest is not taken. -/
theorem OwnerRestored.fails_iff {f : Front} {i : Input} {n : ℕ}
    (h : OwnerRestored sh env route st f i n) : Fails (loadPayload sh env route) st ↔
      ¬ RestTaken sh env f st.worker 0 route.entry ⟨i.stream.drop n, i.remaining - n⟩ := by
  obtain ⟨st', heq, hin, hwork, -⟩ := loadPayload_eq h
  rw [← hin, ← hwork, ← afterOwner_fails_iff]
  unfold Fails
  rw [heq]

theorem OwnerRestored.after_eq {f : Front} {i : Input} {n : ℕ}
    (h : OwnerRestored sh env route st f i n) (hf : Fails (loadPayload sh env route) st) :
    (after (loadPayload sh env route) st).owner =
      ownerRestored sh route st.owner f (i.stream.take n) := by
  obtain ⟨st', heq, -, -, how⟩ := loadPayload_eq h
  have htail : Fails (afterOwner sh env f route.entry) st' := by
    unfold Fails at hf
    rwa [heq] at hf
  have hafter := (afterOwner_leaves st' htail).trans how
  unfold after at hafter ⊢
  rwa [heq]

/-- A failed load leaves the coordinator's session as it was or not valid exactly if its own
shard is not restored, or all that comes behind it succeeds, or its shard restores what the
session already held. -/
theorem failed_load_iff (env : Env W) (route : Route) (st : Loading W) :
    (Fails (loadPayload sh env route) st →
        (after (loadPayload sh env route) st).owner = st.owner ∨
          (after (loadPayload sh env route) st).owner.checkpointValid = false) ↔
      ∀ f i n, OwnerRestored sh env route st f i n →
        RestTaken sh env f st.worker 0 route.entry ⟨i.stream.drop n, i.remaining - n⟩ ∨
          ownerRestored sh route st.owner f (i.stream.take n) = st.owner := by
  constructor
  · intro hsound f i n h
    by_cases hrest : RestTaken sh env f st.worker 0 route.entry
        ⟨i.stream.drop n, i.remaining - n⟩
    · exact .inl hrest
    · have hfails := h.fails_iff.mpr hrest
      have howner := hsound hfails
      rw [h.after_eq hfails] at howner
      exact .inr (howner.resolve_right fun h => absurd (show true = false from h) (by decide))
  · intro hcond hfails
    by_cases hex : ∃ f i n, OwnerRestored sh env route st f i n
    · obtain ⟨f, i, n, h⟩ := hex
      rw [h.after_eq hfails]
      rcases hcond f i n h with hrest | hsame
      · exact absurd hrest (h.fails_iff.mp hfails)
      · exact .inl hsame
    · exact leaves_of_not_ownerRestored hex hfails

/-- The only hop of the route answers no request. -/
def lostHop : Env Unit where
  routeReady := .ok ()
  allocates := true
  staged _ := .ok ()
  restore _ _ _ w := (.error "connection to the worker was lost", w)

/-- Where the hop is lost, the coordinator's session holds the new tokens, and is valid. -/
theorem lost_hop_half_restored :
    ¬ ∀ (sh : Shape) (W : Type) (env : Env W) (route : Route) (st : Loading W),
      Fails (loadPayload sh env route) st →
        (after (loadPayload sh env route) st).owner = st.owner ∨
          (after (loadPayload sh env route) st).owner.checkpointValid = false := by
  intro h
  let node := Session.blank .flash (.sized 10) [5]
  let st : Loading Unit := ⟨Input.ofBytes (nodePayload .flash node),
    Session.blank .flash (.sized 10) [7], [], fun _ => ()⟩
  have hnode : node.Fits .flash := Session.blank_fits (by decide) (by decide)
  have htakes : Takes .flash node st.owner := ⟨le_rfl, show 1 < 2 ^ 10 by decide, rfl⟩
  have howner : OwnerRestored .flash lostHop ⟨0, 20, [(21, 42)]⟩ st (nodeFront .flash node) _ _ :=
    ownerRestored_node hnode rfl htakes rfl rfl rfl rfl rfl
  have hfails : Fails (loadPayload .flash lostHop ⟨0, 20, [(21, 42)]⟩) st := by
    rw [howner.fails_iff]
    rintro ⟨-, n, -, -, -, hlost, -⟩
    cases hlost
  have hafter := h .flash Unit lostHop ⟨0, 20, [(21, 42)]⟩ st hfails
  rw [howner.after_eq hfails] at hafter
  rcases hafter with hsame | hinvalid
  · have hcheck : [5] = [7] := congrArg Session.checkpoint hsame
    exact absurd hcheck (by decide)
  · exact absurd (show true = false from hinvalid) (by decide)

end Failure

end Ds4Studio.Dist
