import Ds4Studio.Dist.HalfRestored

/-!
Payloads and the cluster's topology. A payload that a single node would have written is
split over any route whose hops have the same raw window; what keeps sessions from
moving between routes is the layout that each hop writes into its shard.
-/

namespace Ds4Studio.Dist

open List LittleEndian Payload Reader Stateful

variable {sh : Shape} {node : Session}

/-- What a hop that can take its layers of the node's session makes of them. -/
def taken (sh : Shape) (node s : Session) (range : ℕ × ℕ) : Session :=
  Restore.restored sh node.checkpoint (node.shard sh range.1 range.2)
    (node.rows sh (layers range.1 range.2)) s

section Hop

variable {range : ℕ × ℕ} (hs : node.Fits sh) (hle : range.1 ≤ range.2) (hlt : range.2 < sh.nLayer)
include hs hle hlt

theorem ends_restoreNode {s : Session} (Q : Session → Prop) :
    Ends (Restore.layerPayload sh node.checkpoint range.1 range.2)
        ⟨Input.ofBytes ((nodeFront sh node).shardFront range.1 range.2 ++
          node.rows sh (layers range.1 range.2)), s, []⟩ (fun _ st => Q st.session) ↔
      Takes sh node s ∧ Q (taken sh node s range) := by
  have hlayer := sh.nLayer_lt
  have hsound := nodeFront_sound hs
  have hn := slice_length (hsound.nComp_length.symm ▸ hlt) hle
  have hm := slice_length (hsound.nIndexComp_length.symm ▸ hlt) hle
  have hlayers := layers_lt range.1 hlt
  have hsize : sizeOf sh (((nodeFront sh node).shard range).slots sh (sh.rawCap s.caps)) =
      (node.rows sh (layers range.1 range.2)).length := by
    rw [nodeFront_shard hle hlt, hs.rows_length (sh.rawCap s.caps) hlayers, Session.shard_slots]
  have hiff := @ends_restoreShard sh (Layout.of sh node) s node.checkpoint range.1 range.2
    (slice range.1 range.2 (nodeFront sh node).nComp)
    (slice range.1 range.2 (nodeFront sh node).nIndexComp)
    (node.rows sh (layers range.1 range.2)) [] Q (Layout.of_small hs) (by omega) hle hn hm
    (fun n h => hsound.nComp_lt n (mem_slice h)) fun n h => hsound.nIndexComp_lt n (mem_slice h)
  have hsteady : ∀ n, Restore.Steady n [] := fun n => by simp [Restore.Steady]
  change Ends _ _ _ ↔ (nodeFront sh node).accepted sh s range ∧
    sizeOf sh (((nodeFront sh node).shard range).slots sh (sh.rawCap s.caps)) = _ ∧ _ ∧
      Q (Restore.restored sh node.checkpoint ((nodeFront sh node).shard range) _ s) at hiff
  rw [nodeFront_accepted hle hlt hs, nodeFront_shard hle hlt] at hiff
  rw [nodeFront_shard hle hlt] at hsize
  exact hiff.trans (and_congr_right fun _ =>
    ⟨fun h => h.2.2, fun h => ⟨hsize, hsteady _, h⟩⟩)

omit hle in
theorem taken_holds {s : Session} (hfit : s.Fits sh) (h : Takes sh node s) :
    HopHolds sh node (taken sh node s range) range where
  fits := hs.restored_fits hfit hlt h.ctxSize_le
  checkpoint := rfl
  checkpointValid := rfl
  content _ hil := hs.restored_content h.rawWindow_eq hlt hil

/-- A worker restores its layers of the node's session exactly if it can take them. -/
theorem workerRestore_ok_iff {w : Worker} (Q : Worker → Prop) :
    ((workerRestore sh range node.checkpoint ((nodeFront sh node).shardFront range.1 range.2 ++
          node.rows sh (layers range.1 range.2)) w).1 = .ok () ∧
        Q (workerRestore sh range node.checkpoint ((nodeFront sh node).shardFront range.1 range.2 ++
          node.rows sh (layers range.1 range.2)) w).2) ↔
      Takes sh node w.current ∧ Q { w with session := some (taken sh node w.current range) } := by
  have hvocab : (node.checkpoint.any fun token => decide (sh.nVocab ≤ token)) = false := by
    simpa using hs.token_lt
  have hiff := ends_restoreNode hs hle hlt (s := w.current) fun s =>
    Q { w with session := some s }
  unfold workerRestore
  rw [hvocab]
  by_cases hctx : w.current.caps.ctxSize < node.checkpoint.length
  · rw [if_pos hctx]
    constructor
    · rintro ⟨h, -⟩
      cases h
    · rintro ⟨h, -⟩
      exact absurd h.checkpoint_lt (by omega)
  · rw [if_neg hctx, ← hiff]
    cases hrun : Restore.layerPayload sh node.checkpoint range.1 range.2 ⟨Input.ofBytes
        ((nodeFront sh node).shardFront range.1 range.2 ++
          node.rows sh (layers range.1 range.2)), w.current, []⟩ with
    | ok u r =>
      rw [ends_iff hrun]
      simp
    | error e r =>
      simpa using not_ends ⟨e, r, hrun⟩

end Hop

section Hops

variable (hs : node.Fits sh) {route : Route}
include hs

/-- The worker once its hop has taken its layers. -/
def Worker.taken (sh : Shape) (node : Session) (w : Worker) (range : ℕ × ℕ) : Worker :=
  { w with session := some (Dist.taken sh node w.current range) }

/-- The workers from the `k`-th on once their hops have taken their layers. -/
def takenFrom (sh : Shape) (node : Session) (route : Route) (k : ℕ) (worker : ℕ → Worker) (j : ℕ) :
    Worker :=
  if k ≤ j ∧ j < route.entry.length then (worker j).taken sh node (route.entry.getD j (0, 0))
  else worker j

/-- The hops from the `k`-th on are sent their layers of the node's session, and the load
goes on exactly if each of them can take them. -/
theorem ends_hops {k : ℕ} {ranges : List (ℕ × ℕ)} {st : Loading Worker}
    (hentry : route.entry.drop k = ranges) (hranges : ∀ r ∈ ranges, r.1 ≤ r.2 ∧ r.2 < sh.nLayer)
    (hin : st.input = Input.ofBytes (node.rows sh (ranges.flatMap fun r => layers r.1 r.2)))
    (Q : Input → Session → (ℕ → Worker) → Prop) :
    Ends (loadShards sh (route.env sh) (nodeFront sh node) (k + 1) ranges) st
        (fun _ st' => Q st'.input st'.owner st'.worker) ↔
      (∀ j < ranges.length, Takes sh node (st.worker (k + j)).current) ∧
        Q (Input.ofBytes []) st.owner (takenFrom sh node route k st.worker) := by
  induction ranges generalizing k st with
  | nil =>
    have hlen : route.entry.length ≤ k := drop_eq_nil_iff.mp hentry
    have hnone : takenFrom sh node route k st.worker = st.worker := by
      funext j
      exact if_neg (by omega)
    rw [show loadShards sh (route.env sh) (nodeFront sh node) (k + 1) [] = pure () from rfl,
      ends_iff (runs_pure _ _), hin, hnone]
    simp [Session.rows, Session.slots]
  | cons range rest ih =>
    obtain ⟨hle, hlt⟩ := hranges range (mem_cons_self ..)
    have hk : k < route.entry.length := by
      have hlen := congrArg List.length hentry
      rw [length_drop, length_cons] at hlen
      omega
    rw [drop_eq_getElem_cons hk] at hentry
    obtain ⟨hget, hrest⟩ := cons.inj hentry
    have hgetD : route.entry.getD k (0, 0) = range := by
      rw [getD_eq_getElem?_getD, getElem?_eq_getElem hk, hget, Option.getD_some]
    have hrows : st.input = Input.ofBytes (node.rows sh (layers range.1 range.2) ++
        node.rows sh (rest.flatMap fun r => layers r.1 r.2)) := by
      rw [hin, flatMap_cons, Session.rows_append]
    set w := (st.worker k).taken sh node range with hw
    have hworker : takenFrom sh node route (k + 1) (Function.update st.worker k w) =
        takenFrom sh node route k st.worker := by
      funext j
      unfold takenFrom
      by_cases hj : j = k
      · subst hj
        rw [if_neg (by omega), if_pos ⟨le_rfl, hk⟩, hgetD, Function.update_self]
      · rw [Function.update_of_ne hj]
        by_cases hlast : k + 1 ≤ j ∧ j < route.entry.length
        · rw [if_pos hlast, if_pos (by omega)]
        · rw [if_neg hlast, if_neg (by omega)]
    have hothers (j : ℕ) : Function.update st.worker k w (k + 1 + j) = st.worker (k + (j + 1)) := by
      rw [Function.update_of_ne (by omega), show k + 1 + j = k + (j + 1) by omega]
    rw [show loadShards sh (route.env sh) (nodeFront sh node) (k + 1) (range :: rest) =
      loadShard sh (route.env sh) (nodeFront sh node) (k + 1) range >>= fun _ =>
        loadShards sh (route.env sh) (nodeFront sh node) (k + 2) rest from rfl]
    unfold loadShard Loading.read
    rw [ends_bind, ends_bind, ends_zoom, hrows]
    change Ends (prepareShard sh (.ok ()) _ _ _) _ _ ↔ _
    rw [ends_prepareNode hle hlt hs, ends_restoreRemote]
    let next (w' : Worker) : Loading Worker := { st with
      input := Input.ofBytes (node.rows sh (rest.flatMap fun r => layers r.1 r.2))
      worker := Function.update st.worker k w' }
    have hhop := workerRestore_ok_iff hs hle hlt (w := st.worker k) fun w' =>
      Ends (loadShards sh (route.env sh) (nodeFront sh node) (k + 2) rest) (next w')
        fun _ st' => Q st'.input st'.owner st'.worker
    have htail := @ih (k + 1) (next w) hrest (fun r hr => hranges r (mem_cons_of_mem _ hr)) rfl
    have hanswer (shard : Bytes) : (route.env sh).restore k node.checkpoint shard (st.worker k) =
        workerRestore sh range node.checkpoint shard (st.worker k) := by
      rw [← hgetD]
      rfl
    dsimp only [answered]
    rw [show (nodeFront sh node).tokens = node.checkpoint from rfl, hanswer]
    refine hhop.trans ?_
    change _ ∧ Ends _ (next w) _ ↔ _
    rw [htail]
    simp only [next, hworker, hothers, length_cons]
    constructor
    · rintro ⟨hfirst, hall, hQ⟩
      refine ⟨fun j hj => ?_, hQ⟩
      cases j with
      | zero => exact hfirst
      | succ j => exact hall j (by omega)
    · rintro ⟨hall, hQ⟩
      exact ⟨hall 0 (by omega), fun j hj => hall (j + 1) (by omega), hQ⟩

end Hops

section Load

variable (hs : node.Fits sh) {c : Cluster} (hroute : c.route.validate sh.nLayer = .ok ())
include hs hroute

/-- The cluster once its hops have taken the node's session. -/
def Cluster.taken (sh : Shape) (node : Session) (c : Cluster) : Cluster :=
  { c with
    owner := { Dist.taken sh node c.owner (c.route.localStart, c.route.localEnd) with
      logits := node.logits }
    worker := takenFrom sh node c.route 0 c.worker }

/-- Every hop can take its layers of the node's session. -/
def Cluster.Takes (sh : Shape) (node : Session) (c : Cluster) : Prop :=
  Dist.Takes sh node c.owner ∧
    ∀ k < c.route.entry.length, Dist.Takes sh node (c.worker k).current

/-- A load of the node's payload succeeds exactly if every hop can take its layers. -/
theorem loadPayload_node (c' : Cluster) :
    c.loadPayload sh (nodePayload sh node) = .ok c' ↔
      c.Takes sh node ∧ c' = c.taken sh node := by
  obtain ⟨hlayers, hranges⟩ := Route.shards_layers hroute
  obtain ⟨hle, hlt⟩ := hranges _ (mem_cons_self ..)
  have hends : c.loadPayload sh (nodePayload sh node) = .ok c' ↔
      Ends (loadPayload sh (c.route.env sh) c.route) (c.loading (nodePayload sh node))
        fun _ st => { c with owner := st.owner, worker := st.worker } = c' := by
    unfold Cluster.loadPayload
    cases hrun : loadPayload sh (c.route.env sh) c.route (c.loading (nodePayload sh node)) with
    | ok u st => simp [ends_iff hrun]
    | error e st => simpa using not_ends ⟨e, st, hrun⟩
  set st := c.loading (nodePayload sh node) with hst
  by_cases hown : Dist.Takes sh node c.owner
  · have hrest : OwnerRestored sh (c.route.env sh) c.route st (nodeFront sh node) _ _ :=
      ownerRestored_node hs rfl hown rfl rfl rfl rfl hroute
    obtain ⟨st', heq, hin, hwork, how⟩ := loadPayload_eq hrest
    have hrows : st'.input =
        Input.ofBytes (node.rows sh (c.route.entry.flatMap fun r => layers r.1 r.2)) := by
      rw [hin, ← hlayers, Route.shards, flatMap_cons, Session.rows_append]
      simp [Input.ofBytes]
    have hafter : Ends (loadPayload sh (c.route.env sh) c.route) st
          (fun _ st => { c with owner := st.owner, worker := st.worker } = c') ↔
        Ends (afterOwner sh (c.route.env sh) (nodeFront sh node) c.route.entry) st'
          fun _ st => { c with owner := st.owner, worker := st.worker } = c' := by
      unfold Ends Runs
      rw [heq]
    have hhops := @ends_hops sh node hs c.route 0 c.route.entry st' (drop_zero ..)
      (fun r hr => hranges r (mem_cons_of_mem _ hr)) hrows fun i s w => i.remaining = 0 ∧
        { c with owner := { s with logits := node.logits }, worker := w } = c'
    rw [hends, hafter, ends_afterOwner fun s w => { c with owner := s, worker := w } = c']
    refine hhops.trans ?_
    have howner : st'.owner = Dist.taken sh node c.owner (c.route.localStart, c.route.localEnd) := by
      rw [how, ownerRestored, nodeFront_shard hle hlt, Dist.taken, ← hlayers, Route.shards,
        flatMap_cons, Session.rows_append]
      simp [Input.ofBytes, hst, Cluster.loading, nodeFront]
    rw [howner, hwork]
    simp only [Nat.zero_add, Cluster.Takes, hown, true_and]
    exact and_congr_right fun _ => ⟨fun h => h.2.symm, fun h => ⟨rfl, h.symm⟩⟩
  · constructor
    · intro h
      rw [hends] at h
      unfold loadPayload at h
      have hready : Runs (raise (c.route.env sh).routeReady) st () st := rfl
      have hvalid : Runs (raise (c.route.validate sh.nLayer)) st () st := by
        rw [hroute]
        rfl
      rw [ends_runs_bind hready, ends_runs_bind hvalid, ends_runs_bind (runs_get _), ends_bind,
        Loading.read, ends_zoom] at h
      change Ends (readFront sh true c.owner.caps.ctxSize) (Input.ofBytes (nodePayload sh node)) _
        at h
      obtain ⟨-, h⟩ := (ends_readFront_node hs).mp h
      obtain ⟨_, _, hshards, -⟩ := ends_bind.mp h
      obtain ⟨_, st₁, howner, -⟩ := hshards.of_bind
      have hacc := (ends_loadShard_owner _ (nodeFront_sound hs) hle hlt (Q := fun _ _ _ => True)).mp
        ⟨_, st₁, howner, trivial⟩
      obtain ⟨-, n, -, -, -, hacc, -⟩ := hacc
      exact absurd ((nodeFront_accepted hle hlt hs).mp hacc) hown
    · rintro ⟨h, -⟩
      exact absurd h.1 hown

omit hroute in
theorem HopHolds.with_logits {s : Session} {range : ℕ × ℕ} (h : HopHolds sh node s range) :
    HopHolds sh node { s with logits := node.logits } range where
  fits := { h.fits with logits_length := hs.logits_length }
  checkpoint := h.checkpoint
  checkpointValid := h.checkpointValid
  content := h.content

/-- The sessions of a cluster are allocated for their capacities. -/
structure Cluster.Fits (sh : Shape) (c : Cluster) : Prop where
  owner : c.owner.Fits sh
  worker : ∀ k < c.route.entry.length, (c.worker k).current.Fits sh

theorem taken_cluster_holds (hfit : c.Fits sh) (h : c.Takes sh node) :
    (c.taken sh node).Holds sh node := by
  obtain ⟨-, hranges⟩ := Route.shards_layers hroute
  have hworker {k : ℕ} (hk : k < c.route.entry.length) : (c.taken sh node).worker k =
      (c.worker k).taken sh node (c.route.entry.get ⟨k, hk⟩) := by
    simp [Cluster.taken, takenFrom, hk]
  constructor
  · exact (taken_holds hs (hranges _ (mem_cons_self ..)).2 hfit.owner h.1).with_logits hs
  · rfl
  · intro k hk
    rw [hworker hk]
    rfl
  · intro k hk
    rw [hworker hk]
    refine taken_holds hs (hranges _ ?_).2 (hfit.worker k hk) (h.2 k hk)
    exact mem_cons_of_mem _ (get_mem ..)

end Load

section Topology

/-- The workers of the route have the coordinator's capacities. -/
def Cluster.SameCaps (sh : Shape) (c : Cluster) : Prop :=
  ∀ k < c.route.entry.length,
    (c.worker k).current.caps.ctxSize = c.owner.caps.ctxSize ∧
      (c.worker k).current.caps.prefillCap = c.owner.caps.prefillCap ∧
      sh.rawCap (c.worker k).current.caps = sh.rawCap c.owner.caps

theorem Cluster.Holds.oneLayout_iff {c : Cluster} (h : c.Holds sh node) :
    c.OneLayout sh ↔ c.SameCaps sh := by
  refine forall₂_congr fun k hk => ?_
  have hcheck : (c.worker k).current.checkpoint = c.owner.checkpoint :=
    (h.hop k hk).checkpoint.trans h.owner.checkpoint.symm
  simp only [Layout.layoutMatches, Layout.of, Bool.and_eq_true, beq_iff_eq]
  constructor
  · rintro ⟨⟨⟨⟨⟨⟨⟨⟨⟨hctx, hprefill⟩, hcap⟩, -⟩, -⟩, -⟩, -⟩, -⟩, -⟩, -⟩
    exact ⟨hctx.symm, hprefill.symm, hcap.symm⟩
  · rintro ⟨hctx, hprefill, hcap⟩
    have hwindow : sh.rawWindow c.owner.caps = sh.rawWindow (c.worker k).current.caps := by
      unfold Shape.rawWindow
      rw [hctx]
    have hcomp : sh.compCap c.owner.caps = sh.compCap (c.worker k).current.caps := by
      unfold Shape.compCap Shape.minRatio
      rw [hctx]
    rw [Session.rawLive_eq, Session.rawLive_eq, hcheck, hwindow]
    exact ⟨⟨⟨⟨⟨⟨⟨⟨⟨hctx.symm, hprefill.symm⟩, hcap.symm⟩, rfl⟩, hcomp⟩, rfl⟩, trivial⟩, trivial⟩,
      trivial⟩, rfl⟩

/-- A session moves from one cluster to another as the payload of a single node exactly if
the hops it leaves have the capacities of their coordinator and the hops it goes to can take
its layers. -/
theorem moves_iff (hs : node.Fits sh) (hvalid : node.checkpointValid = true) {A B : Cluster}
    (hA : A.Holds sh node) (hrouteA : A.route.validate sh.nLayer = .ok ())
    (hcaps : A.owner.caps = node.caps) (hB : B.Fits sh)
    (hrouteB : B.route.validate sh.nLayer = .ok ()) :
    (∃ payload, A.savePayload sh = .ok payload ∧ node.savePayload sh = .ok payload ∧
        ∃ B', B.loadPayload sh payload = .ok B' ∧ B'.Holds sh node) ↔
      A.SameCaps sh ∧ B.Takes sh node := by
  rw [← hA.oneLayout_iff]
  constructor
  · rintro ⟨payload, hsave, hnode, B', hload, -⟩
    obtain ⟨hone, -⟩ := (savePayload_iff hA hrouteA hs hvalid hcaps payload).mp hsave
    obtain rfl := Except.ok.inj ((savePayload_node hs hvalid).symm.trans hnode)
    exact ⟨hone, ((loadPayload_node hs hrouteB B').mp hload).1⟩
  · rintro ⟨hone, htakes⟩
    have hnode : node.savePayload sh = .ok (nodePayload sh node) := savePayload_node hs hvalid
    refine ⟨nodePayload sh node, ?_, hnode, B.taken sh node, ?_, ?_⟩
    · exact (savePayload_iff hA hrouteA hs hvalid hcaps _).mpr ⟨hone, hnode⟩
    · exact (loadPayload_node hs hrouteB _).mpr ⟨htakes, rfl⟩
    · exact taken_cluster_holds hs hrouteB hB htakes

/-- Two hops of the smaller model, of which the worker may have a larger context. -/
def Cluster.pair (c d : Caps) (tokens : List ℕ) : Cluster where
  route := ⟨0, 20, [(21, 42)]⟩
  owner := .blank .flash c tokens
  worker _ := ⟨.blank .flash d tokens, some (.blank .flash d tokens)⟩

theorem pair_holds {c d : Caps} (hc : 1 ≤ c.ctxSize) (hd : 1 ≤ d.ctxSize)
    (hwindow : Shape.flash.rawWindow d = Shape.flash.rawWindow c) :
    (Cluster.pair c d [5]).Holds .flash (.blank .flash c [5]) where
  owner := ⟨Session.blank_fits hc (by decide), rfl, rfl, fun _ _ => rfl⟩
  logits := rfl
  session _ _ := rfl
  hop _ _ := ⟨Session.blank_fits hd (by decide), rfl, rfl,
    fun _ _ => Session.blank_content hwindow⟩

theorem pair_fits {c d : Caps} {tokens : List ℕ} (hc : tokens.length ≤ c.ctxSize)
    (hd : tokens.length ≤ d.ctxSize) (hlt : ∀ t ∈ tokens, t < Shape.flash.nVocab) :
    (Cluster.pair c d tokens).Fits .flash where
  owner := Session.blank_fits hc hlt
  worker _ _ := Session.blank_fits hd hlt

/-- A session on two hops moves to two hops with larger contexts. -/
theorem moves_to_larger :
    ∃ payload, (Cluster.pair (.sized 10) (.sized 10) [5]).savePayload .flash = .ok payload ∧
      (Session.blank .flash (.sized 10) [5]).savePayload .flash = .ok payload ∧
        ∃ B', (Cluster.pair (.sized 11) (.sized 12) []).loadPayload .flash payload = .ok B' ∧
          B'.Holds .flash (.blank .flash (.sized 10) [5]) := by
  have hnode : (Session.blank .flash (.sized 10) [5]).Fits .flash :=
    Session.blank_fits (by decide) (by decide)
  have hfits : (Cluster.pair (.sized 11) (.sized 12) []).Fits .flash :=
    pair_fits (by decide) (by decide) (by decide)
  refine (moves_iff hnode rfl (pair_holds (by decide) (by decide) rfl) rfl rfl hfits rfl).mpr ?_
  refine ⟨fun _ _ => ⟨rfl, rfl, rfl⟩, ⟨?_, ?_, rfl⟩, fun _ _ => ⟨?_, ?_, rfl⟩⟩
  · exact show 2 ^ 10 ≤ 2 ^ 11 by decide
  · exact show 1 < 2 ^ 11 by decide
  · exact show 2 ^ 10 ≤ 2 ^ 12 by decide
  · exact show 1 < 2 ^ 12 by decide

/-- What the coordinator asks of a worker that announces itself, once there is a route. -/
def Cluster.Admitted (sh : Shape) (c : Cluster) : Prop :=
  c.route.validate sh.nLayer = .ok () ∧
    ∀ k < c.route.entry.length, c.owner.caps.ctxSize ≤ (c.worker k).current.caps.ctxSize

/-- A session does not move where a worker is admitted with a larger context. -/
theorem admitted_not_moves :
    ¬ ∀ (sh : Shape) (node : Session) (A B : Cluster), node.Fits sh →
      node.checkpointValid = true → A.Holds sh node → A.Admitted sh → A.owner.caps = node.caps →
      B.Fits sh → B.Admitted sh → B.owner.caps = node.caps →
      ∃ payload, A.savePayload sh = .ok payload ∧ node.savePayload sh = .ok payload ∧
        ∃ B', B.loadPayload sh payload = .ok B' ∧ B'.Holds sh node := by
  intro h
  have hnode : (Session.blank .flash (.sized 10) [5]).Fits .flash :=
    Session.blank_fits (by decide) (by decide)
  have hholds : (Cluster.pair (.sized 10) (.sized 11) [5]).Holds .flash
      (.blank .flash (.sized 10) [5]) := pair_holds (by decide) (by decide) rfl
  have hfits : (Cluster.pair (.sized 10) (.sized 11) [5]).Fits .flash :=
    pair_fits (by decide) (by decide) (by decide)
  have hadmitted : (Cluster.pair (.sized 10) (.sized 11) [5]).Admitted .flash :=
    ⟨rfl, fun _ _ => show 2 ^ 10 ≤ 2 ^ 11 by decide⟩
  obtain ⟨payload, hsave, -⟩ := h .flash _ _ _ hnode rfl hholds hadmitted rfl hfits hadmitted rfl
  obtain ⟨hone, -⟩ := (savePayload_iff hholds rfl hnode rfl rfl payload).mp hsave
  obtain ⟨hctx, -⟩ := hholds.oneLayout_iff.mp hone 0 (by decide)
  exact absurd hctx (by decide)

end Topology

end Ds4Studio.Dist
