import Ds4Studio.Session.State

/-!
One cycle of speculative decoding on the graph backend. The target model accepts
a first token, the draft model proposes a short suffix, and the target verifies
it in one pass; on a miss the accepted prefix is kept by one of several paths,
and a plain token by token loop stands behind them all. Every step that can fail
takes its outcome from a schedule, and the draft model may propose anything.
-/

namespace Ds4Studio.Session

open List Option

variable {Tok Log : Type*} [DecidableEq Tok]

/-- The engine's settings and the environment switches of the cycle. -/
structure Switches where
  cpu : Bool
  mtpReady : Bool
  mtpDraftTokens : ℕ
  ctxSize : ℕ
  strict : Bool
  marginThreshold : Bool
  batchVerify : Bool
  capturePrefix1 : Bool
  exactReplay : Bool
  forceSnapshot : Bool

/-- The outcome of every step that may fail, and what the draft model proposes.
Attempted restores succeed. -/
structure Outcomes (Tok : Type*) where
  eval : Bool
  probe : Option Tok
  draft : ℕ → Option Tok
  marginLow : Bool
  marginDecode : Bool
  snapshot : Bool
  decode2 : Bool
  commitPrefix1 : Bool
  verify : Bool
  replay : ℕ → Bool
  readLastRow : Bool
  readFirstRow : Bool
  replayOne : Bool
  verifyAgain : Bool
  readRowAgain : Bool
  sequential : ℕ → Bool
  readBack : Bool

/-- How a path ends: with the return value of the call, `none` for -1, or by
falling through to the code behind it. -/
inductive Exit (Tok Log : Type*)
  | done (accepted : Option (List Tok)) (s : State Tok Log)
  | next (s : State Tok Log)

/-- The recursive drafting loop: up to `n` tokens, none behind the end token. -/
def draftLoop (draft : ℕ → Option Tok) (eos : Tok) : ℕ → ℕ → Option (List Tok)
  | 0, _ => some []
  | n + 1, i =>
      match draft i with
      | none => none
      | some t => if t = eos then some [t] else (draftLoop draft eos n (i + 1)).map (t :: ·)

def draftCap (sw : Switches) (maxTokens acceptedCap pos : ℕ) : ℕ :=
  min (min sw.mtpDraftTokens (maxTokens - 1)) (min (acceptedCap - 1) (sw.ctxSize - pos - 1))

/-- The loop that copies drafts to the caller. -/
def acceptLoop (eos : Tok) (cap : ℕ) : List Tok → List Tok → List Tok
  | accepted, [] => accepted
  | accepted, d :: ds =>
      if accepted.length < cap then
        if d = eos then accepted ++ [d] else acceptLoop eos cap (accepted ++ [d]) ds
      else accepted

/-- The drafts behind the first that agree with the row tops, one by one. -/
def agreeing (tops : ℕ → Option Tok) : ℕ → List Tok → ℕ
  | _, [] => 0
  | i, d :: ds => if tops i = some d then agreeing tops (i + 1) ds + 1 else 0

/-- The logits of a row of the verifier, started on a graph. -/
def rowLogits (T : Target Tok Log) (graph : Option (List Tok)) (drafts : List Tok) (row : ℕ) :
    Option Log :=
  graph.map fun held => T.logits (held ++ drafts.take (row + 1))

def rowTop (T : Target Tok Log) (graph : Option (List Tok)) (drafts : List Tok) (row : ℕ) :
    Option Tok :=
  (rowLogits T graph drafts row).map T.top

/-- One-token decodes of the drafts, each pushed when it succeeds. -/
def replayLoop (outcome : ℕ → Bool) : ℕ → List Tok → State Tok Log → Bool × State Tok Log
  | _, [], s => (true, s)
  | i, d :: ds, s =>
      if outcome i then
        replayLoop outcome (i + 1) ds
          { s with
            checkpoint := s.checkpoint ++ [d]
            graph := decodeAt s.graph s.checkpoint.length d }
      else (false, { s with graph := none })

/-- The state a path leaves behind before it returns drafts. -/
def settle (s : State Tok Log) (checkpoint : List Tok) (graph : Option (List Tok))
    (logits : Option Log) : State Tok Log :=
  { s with
    checkpoint := checkpoint
    checkpointValid := true
    graph := graph
    logits := logits
    mtpDraft := none }

/-- A low margin between the two best drafts: only the first is decoded. -/
def marginSkip (T : Target Tok Log) (o : Outcomes Tok) (accepted : List Tok) (d : Tok)
    (s : State Tok Log) : Exit Tok Log :=
  if o.marginDecode then
    let graph := decodeAt s.graph s.checkpoint.length d
    .done (some (accepted ++ [d])) (settle s (s.checkpoint ++ [d]) graph (graph.map T.logits))
  else .done none { s with checkpointValid := false, graph := none }

/-- The exact two-token verifier, `metal_graph_verify_decode2_exact` and its
paths. Where it gives up, the graph is restored to the snapshot it started from. -/
def decode2Exact (T : Target Tok Log) (o : Outcomes Tok) (acceptedCap : ℕ) (accepted : List Tok)
    (d₀ d₁ : Tok) (s : State Tok Log) : Exit Tok Log :=
  if o.snapshot = true ∧ o.decode2 = true then
    if rowTop T s.graph [d₀, d₁] 0 = some d₁ then
      .done
        (some (if (accepted ++ [d₀]).length < acceptedCap then accepted ++ [d₀, d₁]
          else accepted ++ [d₀]))
        (settle s (s.checkpoint ++ [d₀, d₁]) (s.graph.map (· ++ [d₀, d₁]))
          (rowLogits T s.graph [d₀, d₁] 1))
    else if o.commitPrefix1 then
      .done (some (accepted ++ [d₀]))
        (settle s (s.checkpoint ++ [d₀]) (s.graph.map (· ++ [d₀]))
          (rowLogits T s.graph [d₀, d₁] 0))
    else .next s
  else .next s

/-- `spec_frontier_restore` after the checkpoint was cut back to its start. -/
def specFrontierRestore (frontier : Option (List Tok)) (s : State Tok Log) : State Tok Log :=
  { s with graph := frontier }

omit [DecidableEq Tok] in
@[simp] theorem specFrontierRestore_self (s : State Tok Log) :
    specFrontierRestore s.graph s = s := rfl

/-- The end of the batch verifier's block: the graph goes back to the snapshot,
and without one the session is given up. -/
def giveUp (frontier : Option (Option (List Tok))) (start : List Tok) (s : State Tok Log) :
    Exit Tok Log :=
  match frontier with
  | some graph => .next (specFrontierRestore graph { s with checkpoint := start })
  | none => .done none { s with checkpoint := start, checkpointValid := false }

/-- The paths behind a successful verifier pass when not every draft is kept at
once: prefix-1 commit, one-token replay, and a second pass over the kept drafts. -/
def keepPrefix (T : Target Tok Log) (o : Outcomes Tok) (capture : Bool) (acceptedCap : ℕ) (eos : Tok)
    (accepted drafts : List Tok) (commit : ℕ) (frontier : Option (Option (List Tok)))
    (start : List Tok) (verified : Option (List Tok)) (s : State Tok Log) : Exit Tok Log :=
  if drafts.length = 2 ∧ commit = 1 ∧ capture = true then
    if o.commitPrefix1 then
      let graph := verified.map (· ++ drafts.take 1)
      if o.readFirstRow then
        .done (some (accepted ++ drafts.take 1))
          (settle s (start ++ drafts.take 1) graph (rowLogits T verified drafts 0))
      else giveUp frontier start { s with checkpoint := start, graph := graph }
    else giveUp frontier start { s with checkpoint := start, graph := none }
  else
    match frontier with
    | none => giveUp none start s
    | some held =>
      if drafts.length = 2 ∧ commit = 1 then
        if o.replayOne then
          let graph := (drafts.take 1).foldl (decodeAt · start.length) held
          .done (some (accepted ++ drafts.take 1))
            (settle s (start ++ drafts.take 1) graph (graph.map T.logits))
        else giveUp frontier start { s with checkpoint := start, graph := none }
      else if o.verifyAgain then
        let kept := drafts.take commit
        let graph := held.map (· ++ kept)
        if o.readRowAgain then
          .done (some (acceptLoop eos acceptedCap accepted kept))
            (settle s (start ++ kept) graph (rowLogits T held kept (commit - 1)))
        else giveUp frontier start { s with checkpoint := start ++ kept, graph := graph }
      else giveUp frontier start { s with checkpoint := start ++ drafts.take commit, graph := none }

/-- What follows when the exact replay is off, or a replayed decode failed: the
spec row is read without a look at the replay's outcome. -/
def keepAll (T : Target Tok Log) (o : Outcomes Tok) (capture : Bool) (acceptedCap : ℕ) (eos : Tok)
    (accepted drafts : List Tok) (commit : ℕ) (frontier : Option (Option (List Tok)))
    (start : List Tok) (verified : Option (List Tok)) (s : State Tok Log) : Exit Tok Log :=
  if commit = drafts.length ∧ o.readLastRow = true then
    .done (some (acceptLoop eos acceptedCap accepted drafts))
      (settle s s.checkpoint s.graph (rowLogits T verified drafts (drafts.length - 1)))
  else keepPrefix T o capture acceptedCap eos accepted drafts commit frontier start verified s

def capturesPrefix1 (sw : Switches) (drafts : List Tok) : Bool :=
  drafts.length = 2 && (!sw.strict || sw.capturePrefix1)

def snapshotRequired (sw : Switches) (drafts : List Tok) : Bool :=
  2 < drafts.length ||
    (drafts.length = 2 && (!capturesPrefix1 sw drafts || sw.exactReplay)) || sw.forceSnapshot

/-- A pass of the batch verifier, `metal_graph_verify_suffix_tops`, and its paths,
with the snapshot that was taken in front of it. -/
def runVerifier (T : Target Tok Log) (sw : Switches) (o : Outcomes Tok) (acceptedCap : ℕ)
    (eos : Tok) (accepted drafts : List Tok) (frontier : Option (Option (List Tok)))
    (s : State Tok Log) : Exit Tok Log :=
  let start := s.checkpoint
  let pushed := { s with checkpoint := start ++ drafts, graph := s.graph.map (· ++ drafts) }
  let commit := agreeing (rowTop T s.graph drafts) 0 drafts.tail + 1
  let keep := keepAll T o (capturesPrefix1 sw drafts) acceptedCap eos accepted drafts commit frontier
    start s.graph
  if o.verify then
    match frontier with
    | none => keep pushed
    | some held =>
      if sw.exactReplay then
        let replay := replayLoop o.replay 0 (drafts.take commit)
          (specFrontierRestore held s)
        if replay.1 then
          .done (some (acceptLoop eos acceptedCap accepted (drafts.take commit)))
            (settle replay.2 replay.2.checkpoint replay.2.graph (replay.2.graph.map T.logits))
        else keep replay.2
      else keep pushed
  else giveUp frontier start { pushed with graph := none }

/-- The batch verifier's block, with its snapshot. -/
def microVerify (T : Target Tok Log) (sw : Switches) (o : Outcomes Tok) (acceptedCap : ℕ)
    (eos : Tok) (accepted drafts : List Tok) (s : State Tok Log) : Exit Tok Log :=
  if snapshotRequired sw drafts then
    if o.snapshot then runVerifier T sw o acceptedCap eos accepted drafts (some s.graph) s
    else .next s
  else runVerifier T sw o acceptedCap eos accepted drafts none s

/-- The fallback: plain decodes while the target picks the drafts. -/
def sequentialLoop (T : Target Tok Log) (outcome : ℕ → Bool) (acceptedCap : ℕ) (eos : Tok) :
    ℕ → Option Tok → List Tok → List Tok → State Tok Log → Option (List Tok) × State Tok Log
  | _, _, accepted, [], s => (some accepted, s)
  | i, top, accepted, d :: ds, s =>
      if accepted.length < acceptedCap ∧ top = some d then
        if outcome i then
          let graph := decodeAt s.graph s.checkpoint.length d
          let s := { s with checkpoint := s.checkpoint ++ [d], graph := graph }
          if d = eos then (some (accepted ++ [d]), s)
          else
            sequentialLoop T outcome acceptedCap eos (i + 1) ((graph.map T.logits).map T.top)
              (accepted ++ [d]) ds s
        else (none, { s with checkpointValid := false, graph := none })
      else (some accepted, s)

def sequentialVerify (T : Target Tok Log) (o : Outcomes Tok) (acceptedCap : ℕ) (eos : Tok)
    (accepted drafts : List Tok) (s : State Tok Log) : Option (List Tok) × State Tok Log :=
  match sequentialLoop T o.sequential acceptedCap eos 0 (s.logits.map T.top) accepted drafts s with
  | (none, s) => (none, s)
  | (some accepted', s) =>
    if accepted'.length = accepted.length then (some accepted', s)
    else if o.readBack then (some accepted', { s with logits := s.graph.map T.logits })
    else (none, { s with checkpointValid := false })

def usesDecode2Exact (sw : Switches) (drafts : List Tok) : Bool :=
  drafts.length = 2 && sw.strict && !sw.batchVerify

def skipsOnMargin (sw : Switches) (o : Outcomes Tok) (drafts : List Tok) : Bool :=
  !sw.strict && drafts.length = 2 && sw.marginThreshold && o.marginLow

/-- The path the switches choose for drafts whose first one the target already picked. -/
def chosenPath (T : Target Tok Log) (sw : Switches) (o : Outcomes Tok) (acceptedCap : ℕ)
    (eos : Tok) (accepted : List Tok) (d₀ : Tok) (more : List Tok) (s : State Tok Log) :
    Exit Tok Log :=
  if skipsOnMargin sw o (d₀ :: more) then marginSkip T o accepted d₀ s
  else
    match more with
    | [d₁] =>
      if usesDecode2Exact sw [d₀, d₁] then decode2Exact T o acceptedCap accepted d₀ d₁ s
      else microVerify T sw o acceptedCap eos accepted [d₀, d₁] s
    | _ => microVerify T sw o acceptedCap eos accepted (d₀ :: more) s

def verifyDrafts (T : Target Tok Log) (sw : Switches) (o : Outcomes Tok) (acceptedCap : ℕ)
    (eos : Tok) (accepted : List Tok) (d₀ : Tok) (more : List Tok) (s : State Tok Log) :
    Option (List Tok) × State Tok Log :=
  match chosenPath T sw o acceptedCap eos accepted d₀ more s with
  | .done accepted s => (accepted, s)
  | .next s => sequentialVerify T o acceptedCap eos accepted (d₀ :: more) s

/-- The drafts of a cycle behind its first token: the draft pending from the last
decode, if the target picks it too, and what the recursive drafting adds. -/
def proposeDrafts (T : Target Tok Log) (sw : Switches) (o : Outcomes Tok) (firstToken : Tok)
    (maxTokens : ℕ) (eos : Tok) (acceptedCap : ℕ) (s : State Tok Log) :
    Option (Tok × List Tok) × State Tok Log :=
  if sw.cpu = true ∨ firstToken = eos ∨ maxTokens = 1 ∨ acceptedCap ≤ 1 then (none, s)
  else
    match s.mtpDraft with
    | none => (none, s)
    | some d₀ =>
      let cap := draftCap sw maxTokens acceptedCap s.checkpoint.length
      if sw.mtpReady = false ∨ sw.mtpDraftTokens ≤ 1 ∨ cap = 0 then (none, s)
      else
        let s := { s with mtpDraft := none }
        if s.logits.map T.top ≠ some d₀ then (none, s)
        else
          match draftLoop o.draft eos (if d₀ = eos then 0 else cap - 1) 1 with
          | none => (none, s)
          | some more => (some (d₀, more), s)

/-- `ds4_session_eval_speculative_argmax` on a local session. -/
def evalSpeculativeArgmax (T : Target Tok Log) (sw : Switches) (o : Outcomes Tok)
    (s : State Tok Log) (firstToken : Tok) (maxTokens : ℕ) (eos : Tok) (acceptedCap : ℕ) :
    Option (List Tok) × State Tok Log :=
  if maxTokens = 0 ∨ acceptedCap = 0 then (some [], s)
  else
    match sessionEval T (sw.cpu || o.eval) (if sw.cpu then none else o.probe) s firstToken with
    | (false, s) => (none, s)
    | (true, s) =>
      match proposeDrafts T sw o firstToken maxTokens eos acceptedCap s with
      | (none, s) => (some [firstToken], s)
      | (some (d₀, more), s) => verifyDrafts T sw o acceptedCap eos [firstToken] d₀ more s

/-! ### Accepted drafts -/

/-- Nothing stands behind the end token. -/
def EndsAt (eos : Tok) (ts : List Tok) : Prop := ∀ t ∈ ts.dropLast, t ≠ eos

variable {ts : List Tok} {eos : Tok}

omit [DecidableEq Tok] in
theorem EndsAt.take (h : EndsAt eos ts) (n : ℕ) : EndsAt eos (ts.take n) := by
  intro t ht
  apply h t
  by_cases hn : n < ts.length
  · rw [dropLast_take hn] at ht
    rw [dropLast_eq_take]
    exact take_subset_take_left ts (by omega) ht
  · rwa [take_of_length_le (by omega)] at ht

omit [DecidableEq Tok] in
theorem EndsAt.cons {t : Tok} (ht : t ≠ eos) (h : EndsAt eos ts) : EndsAt eos (t :: ts) := by
  intro u hu
  cases ts with
  | nil => simp at hu
  | cons v ts =>
    rw [dropLast_cons_cons, mem_cons] at hu
    rcases hu with rfl | hu
    · exact ht
    · exact h u hu

theorem acceptLoop_eq {cap : ℕ} {accepted drafts : List Tok} (hends : EndsAt eos drafts)
    (hcap : accepted.length + drafts.length ≤ cap) :
    acceptLoop eos cap accepted drafts = accepted ++ drafts := by
  induction drafts generalizing accepted with
  | nil => simp [acceptLoop]
  | cons d ds ih =>
    simp only [length_cons] at hcap
    rw [acceptLoop, if_pos (by omega)]
    split
    · rename_i hd
      -- the end token is the last draft
      cases ds with
      | nil => rfl
      | cons e ds => exact absurd hd (hends d (by simp))
    · rw [ih, append_assoc, singleton_append]
      · intro t ht
        cases ds with
        | nil => simp at ht
        | cons e ds => exact hends t (by simp [ht])
      · simp only [length_append, length_singleton]
        omega

theorem draftLoop_spec {draft : ℕ → Option Tok} {n i : ℕ} (h : draftLoop draft eos n i = some ts) :
    ts.length ≤ n ∧ EndsAt eos ts := by
  induction n generalizing i ts with
  | zero =>
    simp only [draftLoop, some.injEq] at h
    subst h
    exact ⟨le_rfl, by simp [EndsAt]⟩
  | succ n ih =>
    rw [draftLoop] at h
    split at h
    · simp at h
    · rename_i t ht
      split at h
      · simp only [some.injEq] at h
        subst h
        exact ⟨by simp, by simp [EndsAt]⟩
      · rename_i hne
        simp only [map_eq_some_iff] at h
        obtain ⟨more, hmore, rfl⟩ := h
        obtain ⟨hlen, hends⟩ := ih hmore
        exact ⟨by simpa using hlen, EndsAt.cons hne hends⟩

theorem agreeing_le (tops : ℕ → Option Tok) (i : ℕ) (ds : List Tok) :
    agreeing tops i ds ≤ ds.length := by
  induction ds generalizing i with
  | nil => simp [agreeing]
  | cons d ds ih =>
    rw [agreeing]
    split
    · simpa using ih (i + 1)
    · exact Nat.zero_le _

/-- The drafts that agree with the verifier's rows are the greedy ones. -/
theorem agreeing_greedy (T : Target Tok Log) (held front ds : List Tok) {i : ℕ}
    (hi : front.length = i + 1) :
    Greedy T (held ++ front) (ds.take (agreeing (rowTop T (some held) (front ++ ds)) i ds)) ∧
      (agreeing (rowTop T (some held) (front ++ ds)) i ds = ds.length ↔
        Greedy T (held ++ front) ds) := by
  induction ds generalizing front i with
  | nil => simp [agreeing, Greedy]
  | cons d ds ih =>
    have htop : rowTop T (some held) (front ++ d :: ds) i =
        some (T.top (T.logits (held ++ front))) := by
      simp [rowTop, rowLogits, ← hi]
    have hrest := ih (front ++ [d]) (i := i + 1) (by simp [hi])
    rw [append_assoc, singleton_append, ← append_assoc] at hrest
    rw [agreeing, htop]
    by_cases hd : T.top (T.logits (held ++ front)) = d
    · rw [if_pos (by rw [hd])]
      simp only [take_succ_cons, Greedy, length_cons, Nat.add_right_cancel_iff]
      exact ⟨⟨hd.symm, hrest.1⟩, by simp [hrest.2, hd]⟩
    · rw [if_neg (by simpa using hd)]
      simp [Greedy, Ne.symm hd]

/-! ### What a path may leave behind -/

/-- The session moved by exactly these tokens, each the greedy choice. -/
structure Kept (T : Target Tok Log) (eos : Tok) (s s' : State Tok Log) (ts : List Tok) : Prop where
  checkpoint : s'.checkpoint = s.checkpoint ++ ts
  valid : s'.checkpointValid = true
  describes : s'.Describes T
  greedy : Greedy T s.checkpoint ts
  ends : EndsAt eos ts

/-- A path returns what it kept, fails, or leaves the session as it was. -/
def ExitOk (T : Target Tok Log) (eos : Tok) (accepted : List Tok) (s : State Tok Log) :
    Exit Tok Log → Prop
  | .done (some all) s' => ∃ ts, all = accepted ++ ts ∧ Kept T eos s s' ts
  | .done none _ => True
  | .next s' => s' = s

/-- Drafts whose first one the target picked, short enough for the caller. -/
structure Drafted (T : Target Tok Log) (eos : Tok) (acceptedCap : ℕ) (accepted : List Tok)
    (s : State Tok Log) (d : Tok) (more : List Tok) : Prop where
  first : d = T.top (T.logits s.checkpoint)
  ends : EndsAt eos (d :: more)
  room : accepted.length + (d :: more).length ≤ acceptedCap

section Paths

variable {T : Target Tok Log} {sw : Switches} {o : Outcomes Tok} {acceptedCap : ℕ} {eos : Tok}
  {accepted : List Tok} {s : State Tok Log} {d : Tok} {more : List Tok}

omit [DecidableEq Tok] in
theorem kept_settle {ts : List Tok} (hg : Greedy T s.checkpoint ts) (he : EndsAt eos ts) :
    Kept T eos s
      (settle s (s.checkpoint ++ ts) (some (s.checkpoint ++ ts))
        (some (T.logits (s.checkpoint ++ ts)))) ts :=
  ⟨rfl, rfl, ⟨rfl, rfl⟩, hg, he⟩

omit [DecidableEq Tok] in
theorem Drafted.single (hd : Drafted T eos acceptedCap accepted s d more) :
    Greedy T s.checkpoint [d] ∧ EndsAt eos [d] :=
  ⟨⟨hd.first, trivial⟩, by simp [EndsAt]⟩

omit [DecidableEq Tok] in
theorem marginSkip_ok (hs : s.Describes T) (hd : Drafted T eos acceptedCap accepted s d more) :
    ExitOk T eos accepted s (marginSkip T o accepted d s) := by
  unfold marginSkip
  split
  · refine ⟨[d], rfl, ?_⟩
    simp only [hs.graph, decodeAt_length, map_some]
    exact kept_settle hd.single.1 hd.single.2
  · trivial

theorem decode2Exact_ok {e : Tok} (hs : s.Describes T)
    (hd : Drafted T eos acceptedCap accepted s d [e]) :
    ExitOk T eos accepted s (decode2Exact T o acceptedCap accepted d e s) := by
  have htop : rowTop T s.graph [d, e] 0 = some (T.top (T.logits (s.checkpoint ++ [d]))) := by
    simp [rowTop, rowLogits, hs.graph]
  have hlen : (accepted ++ [d]).length < acceptedCap := by
    have hroom := hd.room
    simp only [length_cons, length_nil] at hroom
    simp only [length_append, length_singleton]
    omega
  unfold decode2Exact
  split
  · split
    · rename_i hrow
      rw [htop, some.injEq] at hrow
      refine ⟨[d, e], rfl, ?_⟩
      simp only [hs.graph, rowLogits, map_some]
      exact kept_settle ⟨hd.first, hrow.symm, trivial⟩ hd.ends
    · split
      · refine ⟨[d], rfl, ?_⟩
        simp only [hs.graph, rowLogits, map_some]
        exact kept_settle hd.single.1 hd.single.2
      · rfl
  · rfl

variable {s' : State Tok Log} {frontier : Option (Option (List Tok))}

omit [DecidableEq Tok] in
/-- Without a snapshot the session is given up; with one it is what it was. -/
theorem giveUp_ok (hf : ∀ g ∈ frontier, g = s.graph) (hv : s'.checkpointValid = s.checkpointValid)
    (hl : s'.logits = s.logits) (hm : s'.mtpDraft = s.mtpDraft) :
    ExitOk T eos accepted s (giveUp frontier s.checkpoint s') := by
  unfold giveUp
  split
  · rename_i g
    have hg := hf g rfl
    subst hg
    show specFrontierRestore _ _ = s
    cases s'
    cases s
    simp_all [specFrontierRestore]
  · trivial

/-- The parts of the state that no decode loop touches. -/
structure Frame (s s' : State Tok Log) : Prop where
  valid : s'.checkpointValid = s.checkpointValid
  logits : s'.logits = s.logits
  mtpDraft : s'.mtpDraft = s.mtpDraft

variable (outcome : ℕ → Bool)

omit [DecidableEq Tok] in
theorem replayLoop_frame (i : ℕ) (ds : List Tok) (s : State Tok Log) :
    Frame s (replayLoop outcome i ds s).2 := by
  induction ds generalizing i s with
  | nil => exact ⟨rfl, rfl, rfl⟩
  | cons d ds ih =>
    rw [replayLoop]
    split
    · have h := ih (i + 1) { s with
        checkpoint := s.checkpoint ++ [d]
        graph := decodeAt s.graph s.checkpoint.length d }
      exact ⟨h.valid, h.logits, h.mtpDraft⟩
    · exact ⟨rfl, rfl, rfl⟩

omit [DecidableEq Tok] in
/-- A replay that succeeds moves checkpoint and graph by the replayed drafts; one
that fails stops in front of a draft. -/
theorem replayLoop_spec (i : ℕ) (ds : List Tok) (s : State Tok Log)
    (hg : s.graph = some s.checkpoint) :
    ((replayLoop outcome i ds s).1 = true ∧
        (replayLoop outcome i ds s).2.checkpoint = s.checkpoint ++ ds ∧
        (replayLoop outcome i ds s).2.graph = some (s.checkpoint ++ ds) ∧
        ∀ j < ds.length, outcome (i + j) = true) ∨
      ((replayLoop outcome i ds s).1 = false ∧
        (replayLoop outcome i ds s).2.checkpoint.length < s.checkpoint.length + ds.length ∧
        ∃ j < ds.length, outcome (i + j) = false) := by
  induction ds generalizing i s with
  | nil => exact Or.inl ⟨rfl, by simp [replayLoop], by simp [replayLoop, hg], by simp⟩
  | cons d ds ih =>
    rw [replayLoop]
    split
    · rename_i hok
      have h := ih (i + 1) { s with
        checkpoint := s.checkpoint ++ [d]
        graph := decodeAt s.graph s.checkpoint.length d } (by simp [hg])
      rcases h with ⟨h₁, h₂, h₃, h₄⟩ | ⟨h₁, h₂, j, hj, hout⟩
      · refine Or.inl ⟨h₁, by simpa using h₂, by simpa using h₃, ?_⟩
        intro j hj
        cases j with
        | zero => exact hok
        | succ j =>
          have := h₄ j (by simpa using hj)
          rwa [show i + 1 + j = i + (j + 1) by omega] at this
      · refine Or.inr ⟨h₁, ?_, j + 1, by simpa using hj, ?_⟩
        · simp only [length_append, length_singleton] at h₂
          simp only [length_cons]
          omega
        · rwa [show i + 1 + j = i + (j + 1) by omega] at hout
    · rename_i hfail
      exact Or.inr ⟨rfl, by simp, 0, by simp, by simpa using hfail⟩

/-- The one way to lose the session: the exact replay is on and a replayed decode
fails although the target keeps every draft and the spec row can be read. -/
structure ReplayLost (T : Target Tok Log) (sw : Switches) (o : Outcomes Tok) (held drafts : List Tok) :
    Prop where
  exactReplay : sw.exactReplay = true
  snapshotRequired : snapshotRequired sw drafts = true
  snapshot : o.snapshot = true
  verify : o.verify = true
  greedy : Greedy T held drafts
  replay : ∃ i < drafts.length, o.replay i = false
  readLastRow : o.readLastRow = true

section

variable (hs : s.Describes T)

include hs

section

variable (hd : Drafted T eos acceptedCap accepted s d more)

include hd

/-- The paths that keep a proper prefix, or every draft by a second pass. -/
theorem keepPrefix_ok {capture : Bool} (hf : ∀ g ∈ frontier, g = s.graph) {commit : ℕ}
    (hpos : 0 < commit) (hle : commit ≤ (d :: more).length)
    (hg : Greedy T s.checkpoint ((d :: more).take commit)) (hframe : Frame s s') :
    ExitOk T eos accepted s
      (keepPrefix T o capture acceptedCap eos accepted (d :: more) commit frontier s.checkpoint
        s.graph s') := by
  have hfirst : (d :: more).take 1 = [d] := rfl
  have hgive : ∀ checkpoint graph, ExitOk T eos accepted s
      (giveUp frontier s.checkpoint { s' with checkpoint := checkpoint, graph := graph }) :=
    fun _ _ => giveUp_ok hf hframe.valid hframe.logits hframe.mtpDraft
  unfold keepPrefix
  split
  · split
    · simp only [hfirst]
      split
      · refine ⟨[d], rfl, ?_⟩
        simp only [hs.graph, rowLogits, map_some]
        exact kept_settle hd.single.1 hd.single.2
      · exact hgive _ _
    · exact hgive _ _
  · cases frontier with
    | none => trivial
    | some held =>
      obtain rfl := hf held rfl
      simp only
      split
      · split
        · simp only [hfirst, foldl_cons, foldl_nil, hs.graph, decodeAt_length, map_some]
          exact ⟨[d], rfl, kept_settle hd.single.1 hd.single.2⟩
        · exact hgive _ _
      · split
        · split
          · have hends := hd.ends.take commit
            have hroom : accepted.length + ((d :: more).take commit).length ≤ acceptedCap := by
              have := hd.room
              rw [length_take]
              omega
            have hrow : ((d :: more).take commit).take (commit - 1 + 1) = (d :: more).take commit := by
              rw [take_take]
              congr 1
              omega
            refine ⟨(d :: more).take commit, acceptLoop_eq hends hroom, ?_⟩
            simp only [hs.graph, rowLogits, map_some, hrow]
            exact kept_settle hg hends
          · exact hgive _ _
        · exact hgive _ _

/-- The number of drafts the verifier keeps, with what it says about them. -/
theorem commit_spec :
    agreeing (rowTop T s.graph (d :: more)) 0 more + 1 ≤ (d :: more).length ∧
      Greedy T s.checkpoint
        ((d :: more).take (agreeing (rowTop T s.graph (d :: more)) 0 more + 1)) ∧
      (agreeing (rowTop T s.graph (d :: more)) 0 more + 1 = (d :: more).length ↔
        Greedy T s.checkpoint (d :: more)) := by
  have h := agreeing_greedy T s.checkpoint [d] more (i := 0) rfl
  rw [hs.graph]
  refine ⟨?_, ?_, ?_⟩
  · have hle := agreeing_le (rowTop T (some s.checkpoint) (d :: more)) 0 more
    simpa using hle
  · rw [take_succ_cons]
    exact ⟨hd.first, h.1⟩
  · rw [length_cons, Nat.add_right_cancel_iff]
    exact h.2.trans ⟨fun hg => ⟨hd.first, hg⟩, fun hg => hg.2⟩

/-- The spec row is the one behind the last draft; it describes the session only
if checkpoint and graph still hold every draft. -/
theorem keepAll_ok {capture : Bool} (hf : ∀ g ∈ frontier, g = s.graph)
    {commit : ℕ} (hpos : 0 < commit) (hle : commit ≤ (d :: more).length)
    (hg : Greedy T s.checkpoint ((d :: more).take commit)) (hframe : Frame s s')
    (hheld : commit = (d :: more).length → o.readLastRow = true →
      s'.checkpoint = s.checkpoint ++ d :: more ∧ s'.graph = some (s.checkpoint ++ d :: more)) :
    ExitOk T eos accepted s
      (keepAll T o capture acceptedCap eos accepted (d :: more) commit frontier s.checkpoint
        s.graph s') := by
  unfold keepAll
  split
  · rename_i hall
    obtain ⟨hcheckpoint, hgraph⟩ := hheld hall.1 hall.2
    rw [hall.1, take_length] at hg
    refine ⟨d :: more, acceptLoop_eq hd.ends hd.room, ?_⟩
    have hrow : (d :: more).take ((d :: more).length - 1 + 1) = d :: more := by
      rw [take_of_length_le (by omega)]
    simp only [hcheckpoint, hgraph, hs.graph, rowLogits, map_some, hrow]
    exact kept_settle hg hd.ends
  · exact keepPrefix_ok hs hd hf hpos hle hg hframe

theorem runVerifier_ok (hf : ∀ g ∈ frontier, g = s.graph)
    (hreplay : frontier.isSome = true → sw.exactReplay = true → o.verify = true →
      Greedy T s.checkpoint (d :: more) → o.readLastRow = true →
      ∀ i < (d :: more).length, o.replay i = true) :
    ExitOk T eos accepted s
      (runVerifier T sw o acceptedCap eos accepted (d :: more) frontier s) := by
  obtain ⟨hle, hg, hall⟩ := commit_spec hs hd
  have hpos : 0 < agreeing (rowTop T s.graph (d :: more)) 0 more + 1 := Nat.succ_pos _
  -- checkpoint and graph behind a verifier pass hold every draft
  have hpushed : ExitOk T eos accepted s
      (keepAll T o (capturesPrefix1 sw (d :: more)) acceptedCap eos accepted (d :: more)
        (agreeing (rowTop T s.graph (d :: more)) 0 more + 1) frontier s.checkpoint s.graph
        { s with
          checkpoint := s.checkpoint ++ d :: more
          graph := s.graph.map (· ++ d :: more) }) :=
    keepAll_ok hs hd hf hpos hle hg ⟨rfl, rfl, rfl⟩ (fun _ _ => by simp [hs.graph])
  unfold runVerifier
  simp only [tail_cons]
  split
  · rename_i hverify
    split
    · exact hpushed
    · rename_i held
      obtain rfl := hf held rfl
      split
      · rename_i hexact
        rw [specFrontierRestore_self]
        have hloop := replayLoop_spec o.replay 0
          ((d :: more).take (agreeing (rowTop T s.graph (d :: more)) 0 more + 1)) s hs.graph
        have hframe := replayLoop_frame o.replay 0
          ((d :: more).take (agreeing (rowTop T s.graph (d :: more)) 0 more + 1)) s
        rcases hloop with ⟨hok, hcheckpoint, hgraph, -⟩ | ⟨hok, -, i, hi, hfail⟩
        · have hroom : accepted.length + ((d :: more).take
              (agreeing (rowTop T s.graph (d :: more)) 0 more + 1)).length ≤ acceptedCap := by
            have := hd.room
            rw [length_take]
            omega
          simp only [hok, if_true]
          refine ⟨_, acceptLoop_eq (hd.ends.take _) hroom, ?_⟩
          simp only [hcheckpoint, hgraph, map_some]
          exact kept_settle hg (hd.ends.take _)
        · simp only [hok, Bool.false_eq_true, if_false]
          apply keepAll_ok hs hd hf hpos hle hg hframe
          intro hcommit hread
          -- a failed replay is excluded where the spec row would be taken
          rw [length_take] at hi
          have := hreplay rfl hexact hverify (hall.mp hcommit) hread i (by omega)
          simp [this] at hfail
      · exact hpushed
  · exact giveUp_ok hf rfl rfl rfl

theorem microVerify_ok (hlost : ¬ ReplayLost T sw o s.checkpoint (d :: more)) :
    ExitOk T eos accepted s (microVerify T sw o acceptedCap eos accepted (d :: more) s) := by
  unfold microVerify
  split
  · rename_i hreq
    split
    · rename_i hsnap
      apply runVerifier_ok hs hd (by simp)
      intro _ hexact hverify hgreedy hread i hi
      by_contra hfail
      exact hlost ⟨hexact, hreq, hsnap, hverify, hgreedy, ⟨i, hi, by simpa using hfail⟩, hread⟩
    · rfl
  · apply runVerifier_ok hs hd (by simp)
    simp

/-- In the lost case every draft is returned, but the checkpoint misses some. -/
theorem microVerify_lost (hlost : ReplayLost T sw o s.checkpoint (d :: more)) :
    ∃ s', microVerify T sw o acceptedCap eos accepted (d :: more) s =
        .done (some (accepted ++ d :: more)) s' ∧
      s'.checkpoint.length < s.checkpoint.length + (d :: more).length := by
  obtain ⟨-, -, hall⟩ := commit_spec hs hd
  have hcommit := hall.mpr hlost.greedy
  obtain ⟨i, hi, hfail⟩ := hlost.replay
  have hloop := replayLoop_spec o.replay 0 (d :: more) s hs.graph
  rcases hloop with ⟨-, -, -, hok⟩ | ⟨hok, hlen, -⟩
  · have := hok i hi
    rw [Nat.zero_add] at this
    simp [this] at hfail
  · refine ⟨settle (replayLoop o.replay 0 (d :: more) s).2
      (replayLoop o.replay 0 (d :: more) s).2.checkpoint
      (replayLoop o.replay 0 (d :: more) s).2.graph
      (rowLogits T s.graph (d :: more) ((d :: more).length - 1)), ?_, hlen⟩
    simp only [microVerify, runVerifier, tail_cons, hlost.snapshotRequired, hlost.snapshot,
      hlost.verify, hlost.exactReplay, hcommit, take_length, if_true, specFrontierRestore_self]
    rw [if_neg (by simp [hok]), keepAll, if_pos ⟨rfl, hlost.readLastRow⟩,
      acceptLoop_eq hd.ends hd.room]

end

end

variable {all : List Tok}

omit [DecidableEq Tok] in
private theorem sequential_stop (hg : s.graph = some s.checkpoint)
    (h : (some accepted, s) = (some all, s')) :
    ∃ ts, all = accepted ++ ts ∧ s'.checkpoint = s.checkpoint ++ ts ∧
      s'.graph = some (s.checkpoint ++ ts) ∧ Greedy T s.checkpoint ts ∧ EndsAt eos ts ∧
      Frame s s' := by
  simp only [Prod.mk.injEq, some.injEq] at h
  obtain ⟨rfl, rfl⟩ := h
  exact ⟨[], by simp, by simp, by simp [hg], trivial, by simp [EndsAt], rfl, rfl, rfl⟩

/-- The fallback keeps greedy drafts only and touches nothing but checkpoint and graph. -/
theorem sequentialLoop_ok (i : ℕ) (accepted ds : List Tok) (s : State Tok Log)
    (hg : s.graph = some s.checkpoint)
    (h : sequentialLoop T outcome acceptedCap eos i (some (T.top (T.logits s.checkpoint))) accepted
      ds s = (some all, s')) :
    ∃ ts, all = accepted ++ ts ∧ s'.checkpoint = s.checkpoint ++ ts ∧
      s'.graph = some (s.checkpoint ++ ts) ∧ Greedy T s.checkpoint ts ∧ EndsAt eos ts ∧
      Frame s s' := by
  induction ds generalizing i accepted s with
  | nil => exact sequential_stop hg h
  | cons d ds ih =>
    rw [sequentialLoop] at h
    split at h
    · rename_i hcond
      have hd : T.top (T.logits s.checkpoint) = d := by simpa using hcond.2
      split at h
      · simp only [hg, decodeAt_length, map_some] at h
        split at h
        · simp only [Prod.mk.injEq, some.injEq] at h
          obtain ⟨rfl, rfl⟩ := h
          exact ⟨[d], rfl, rfl, rfl, ⟨hd.symm, trivial⟩, by simp [EndsAt], rfl, rfl, rfl⟩
        · rename_i hne
          obtain ⟨ts, hall, hc, hgraph, hgreedy, hends, hv, hl, hm⟩ :=
            ih (i + 1) (accepted ++ [d])
              { s with checkpoint := s.checkpoint ++ [d], graph := some (s.checkpoint ++ [d]) } rfl h
          refine ⟨d :: ts, by simp [hall], by simp [hc], by simp [hgraph], ⟨hd.symm, hgreedy⟩, ?_,
            hv, hl, hm⟩
          exact EndsAt.cons hne hends
      · simp at h
    · exact sequential_stop hg h

section

variable (hs : s.Describes T)

include hs

theorem sequentialVerify_ok (hv : s.checkpointValid = true) {drafts : List Tok}
    (h : sequentialVerify T o acceptedCap eos accepted drafts s = (some all, s')) :
    ∃ ts, all = accepted ++ ts ∧ Kept T eos s s' ts := by
  unfold sequentialVerify at h
  rw [hs.logits] at h
  split at h
  · simp at h
  · rename_i all' s'' hloop
    obtain ⟨ts, rfl, hc, hgraph, hgreedy, hends, hframe⟩ :=
      sequentialLoop_ok o.sequential 0 accepted drafts s hs.graph hloop
    split at h
    · rename_i hlen
      have hts : ts = [] := by
        rw [length_append] at hlen
        exact length_eq_zero_iff.mp (by omega)
      obtain ⟨rfl, rfl⟩ := h
      refine ⟨ts, rfl, hc, hframe.valid.trans hv, ⟨?_, ?_⟩, hgreedy, hends⟩
      · rw [hgraph, hc]
      · rw [hframe.logits, hs.logits, hc, hts, append_nil]
    · split at h
      · simp only [Prod.mk.injEq, some.injEq] at h
        obtain ⟨rfl, rfl⟩ := h
        refine ⟨ts, rfl, hc, hframe.valid.trans hv, ⟨?_, ?_⟩, hgreedy, hends⟩
        · simp only [hgraph, hc]
        · simp only [hgraph, hc, map_some]
      · simp at h

theorem chosenPath_ok (hd : Drafted T eos acceptedCap accepted s d more)
    (hlost : skipsOnMargin sw o (d :: more) = false → usesDecode2Exact sw (d :: more) = false →
      ¬ ReplayLost T sw o s.checkpoint (d :: more)) :
    ExitOk T eos accepted s (chosenPath T sw o acceptedCap eos accepted d more s) := by
  unfold chosenPath
  split
  · exact marginSkip_ok hs hd
  · rename_i hmargin
    have hlost := hlost (by simpa using hmargin)
    split
    · rename_i e
      split
      · exact decode2Exact_ok hs hd
      · rename_i huses
        exact microVerify_ok hs hd (hlost (by simpa using huses))
    · rename_i hlong
      apply microVerify_ok hs hd (hlost ?_)
      by_contra huses
      simp only [usesDecode2Exact, Bool.not_eq_false, Bool.and_eq_true, decide_eq_true_eq,
        length_cons] at huses
      obtain ⟨e, rfl⟩ := length_eq_one_iff.mp (show more.length = 1 by omega)
      exact hlong e rfl

theorem verifyDrafts_ok (hv : s.checkpointValid = true)
    (hd : Drafted T eos acceptedCap accepted s d more)
    (hlost : skipsOnMargin sw o (d :: more) = false → usesDecode2Exact sw (d :: more) = false →
      ¬ ReplayLost T sw o s.checkpoint (d :: more))
    (h : verifyDrafts T sw o acceptedCap eos accepted d more s = (some all, s')) :
    ∃ ts, all = accepted ++ ts ∧ Kept T eos s s' ts := by
  have hexit := chosenPath_ok hs hd hlost
  unfold verifyDrafts at h
  split at h
  · rename_i ret t heq
    rw [heq] at hexit
    obtain ⟨rfl, rfl⟩ := h
    exact hexit
  · rename_i t heq
    rw [heq] at hexit
    obtain rfl : t = s := hexit
    exact sequentialVerify_ok hs hv h

theorem verifyDrafts_lost (hd : Drafted T eos acceptedCap accepted s d more)
    (hmargin : skipsOnMargin sw o (d :: more) = false)
    (huses : usesDecode2Exact sw (d :: more) = false)
    (hlost : ReplayLost T sw o s.checkpoint (d :: more)) :
    ∃ s', verifyDrafts T sw o acceptedCap eos accepted d more s =
        (some (accepted ++ d :: more), s') ∧
      s'.checkpoint.length < s.checkpoint.length + (d :: more).length := by
  obtain ⟨s', hmicro, hlen⟩ := microVerify_lost hs hd hlost
  have hpath : chosenPath T sw o acceptedCap eos accepted d more s =
      .done (some (accepted ++ d :: more)) s' := by
    rw [← hmicro]
    cases more with
    | nil => simp [chosenPath, hmargin]
    | cons e more =>
      cases more with
      | nil => simp [chosenPath, hmargin, huses]
      | cons e' more => simp [chosenPath, hmargin]
  exact ⟨s', by rw [verifyDrafts, hpath], hlen⟩

end

end Paths

/-! ### The cycle -/

/-- The session behind the first token, with the draft that is pending there. -/
def firstDecoded (T : Target Tok Log) (s : State Tok Log) (firstToken : Tok) (draft : Option Tok) :
    State Tok Log :=
  { s with
    checkpoint := s.checkpoint ++ [firstToken]
    graph := some (s.checkpoint ++ [firstToken])
    logits := some (T.logits (s.checkpoint ++ [firstToken]))
    mtpDraft := draft }

/-- A cycle that takes the batch verifier's path into the lost case. -/
structure CycleLost (T : Target Tok Log) (sw : Switches) (o : Outcomes Tok) (s : State Tok Log)
    (firstToken : Tok) (maxTokens : ℕ) (eos : Tok) (acceptedCap : ℕ) (d : Tok) (more : List Tok) :
    Prop where
  wanted : maxTokens ≠ 0 ∧ acceptedCap ≠ 0
  eval : o.eval = true
  proposed : (proposeDrafts T sw o firstToken maxTokens eos acceptedCap
    (firstDecoded T s firstToken o.probe)).1 = some (d, more)
  margin : skipsOnMargin sw o (d :: more) = false
  batch : usesDecode2Exact sw (d :: more) = false
  lost : ReplayLost T sw o (s.checkpoint ++ [firstToken]) (d :: more)

/-- What a call that accepted tokens promises: they are the first token and its
greedy continuation, and the session holds exactly them. -/
structure Speculated (T : Target Tok Log) (eos : Tok) (s : State Tok Log) (firstToken : Tok)
    (accepted : List Tok) (s' : State Tok Log) : Prop where
  checkpoint : s'.checkpoint = s.checkpoint ++ accepted
  valid : s'.checkpointValid = true
  describes : s'.Describes T
  greedy : ∃ ts, accepted = firstToken :: ts ∧ Greedy T (s.checkpoint ++ [firstToken]) ts
  ends : EndsAt eos accepted

section Cycle

variable {T : Target Tok Log} {sw : Switches} {o : Outcomes Tok} {s : State Tok Log}
  {firstToken : Tok} {maxTokens : ℕ} {eos : Tok} {acceptedCap : ℕ}

theorem proposeDrafts_none {s s' : State Tok Log}
    (h : proposeDrafts T sw o firstToken maxTokens eos acceptedCap s = (none, s')) :
    ∃ draft, s' = { s with mtpDraft := draft } := by
  have hsame : ∀ draft, (none, { s with mtpDraft := draft }) =
      ((none, s') : Option (Tok × List Tok) × State Tok Log) →
      ∃ draft, s' = { s with mtpDraft := draft } :=
    fun draft heq => ⟨draft, (congrArg Prod.snd heq).symm⟩
  unfold proposeDrafts at h
  split at h
  · exact hsame s.mtpDraft h
  · split at h
    · exact hsame s.mtpDraft h
    · simp only at h
      split at h
      · exact hsame s.mtpDraft h
      · split at h
        · exact hsame none h
        · split at h
          · exact hsame none h
          · simp at h

theorem proposeDrafts_drafted {d : Tok} {more : List Tok} {s' : State Tok Log} (hs : s.Describes T)
    (h : proposeDrafts T sw o firstToken maxTokens eos acceptedCap s = (some (d, more), s')) :
    sw.cpu = false ∧ firstToken ≠ eos ∧ s' = { s with mtpDraft := none } ∧
      Drafted T eos acceptedCap [firstToken] s d more := by
  unfold proposeDrafts at h
  split at h
  · simp at h
  · rename_i hgo
    rw [not_or, not_or] at hgo
    split at h
    · simp at h
    · rename_i d₀ hpending
      simp only at h
      split at h
      · simp at h
      · rename_i hcap
        split at h
        · simp at h
        · rename_i htop
          split at h
          · simp at h
          · rename_i ts hloop
            simp only [Prod.mk.injEq, some.injEq] at h
            obtain ⟨⟨rfl, rfl⟩, rfl⟩ := h
            obtain ⟨hlen, hends⟩ := draftLoop_spec hloop
            have hroom : draftCap sw maxTokens acceptedCap s.checkpoint.length ≤ acceptedCap - 1 := by
              unfold draftCap
              omega
            refine ⟨by simpa using hgo.1, hgo.2.1, rfl, ?_, ?_, ?_⟩
            · simpa [hs.logits] using Eq.symm (not_not.mp htop)
            · by_cases hd : d₀ = eos
              · rw [if_pos hd] at hlen
                have hnil : ts = [] := length_eq_zero_iff.mp (by omega)
                subst hnil
                simp [EndsAt]
              · exact EndsAt.cons hd hends
            · simp only [length_cons, length_nil]
              split at hlen <;> omega

omit [DecidableEq Tok] in
theorem speculated_first (hv : s.checkpointValid = true) (draft : Option Tok) :
    Speculated T eos s firstToken [firstToken] (firstDecoded T s firstToken draft) :=
  ⟨rfl, hv, ⟨rfl, rfl⟩, ⟨[], rfl, trivial⟩, by simp [EndsAt]⟩

omit [DecidableEq Tok] in
theorem sessionEval_first (hs : s.Describes T) (draft : Option Tok) :
    sessionEval T true draft s firstToken = (true, firstDecoded T s firstToken draft) := by
  simp [sessionEval, firstDecoded, hs.graph]

omit [DecidableEq Tok] in
theorem Kept.speculated {ts : List Tok} {s' : State Tok Log} (hne : firstToken ≠ eos)
    (h : Kept T eos (firstDecoded T s firstToken none) s' ts) :
    Speculated T eos s firstToken (firstToken :: ts) s' := by
  refine ⟨?_, h.valid, h.describes, ⟨ts, rfl, h.greedy⟩, EndsAt.cons hne h.ends⟩
  rw [h.checkpoint]
  simp [firstDecoded]

/-- A cycle is greedy decoding unless it is lost. -/
theorem evalSpeculativeArgmax_greedy_iff (hs : s.Describes T) (hv : s.checkpointValid = true) :
    (∀ accepted s', evalSpeculativeArgmax T sw o s firstToken maxTokens eos acceptedCap =
        (some accepted, s') → accepted ≠ [] → Speculated T eos s firstToken accepted s') ↔
      ¬ ∃ d more, CycleLost T sw o s firstToken maxTokens eos acceptedCap d more := by
  have hfirst : (firstDecoded T s firstToken none).Describes T := ⟨rfl, rfl⟩
  constructor
  · rintro hall ⟨d, more, hlost⟩
    obtain ⟨s', hpropose⟩ : ∃ s', proposeDrafts T sw o firstToken maxTokens eos acceptedCap
        (firstDecoded T s firstToken o.probe) = (some (d, more), s') :=
      ⟨_, Prod.ext hlost.proposed rfl⟩
    obtain ⟨hcpu, -, rfl, hd⟩ := proposeDrafts_drafted ⟨rfl, rfl⟩ hpropose
    obtain ⟨s', hverify, hlen⟩ := verifyDrafts_lost hfirst ⟨hd.first, hd.ends, hd.room⟩ hlost.margin
      hlost.batch hlost.lost
    have heval : evalSpeculativeArgmax T sw o s firstToken maxTokens eos acceptedCap =
        (some ([firstToken] ++ d :: more), s') := by
      rw [evalSpeculativeArgmax, if_neg (not_or.mpr hlost.wanted), hlost.eval, hcpu]
      simp only [Bool.or_true, Bool.false_eq_true, if_false, sessionEval_first hs, hpropose]
      exact hverify
    have hgrown := congrArg List.length (hall _ s' heval (by simp)).checkpoint
    simp only [firstDecoded, length_append, length_cons, length_nil] at hgrown hlen
    omega
  · intro hlost accepted s' heq hne
    unfold evalSpeculativeArgmax at heq
    split at heq
    · simp only [Prod.mk.injEq, some.injEq] at heq
      exact absurd heq.1.symm hne
    · rename_i hwanted
      cases hok : (sw.cpu || o.eval) with
      | false => simp [sessionEval, hok] at heq
      | true =>
        rw [hok, sessionEval_first hs] at heq
        simp only at heq
        split at heq
        · rename_i s'' hpropose
          obtain ⟨draft, rfl⟩ := proposeDrafts_none hpropose
          obtain ⟨rfl, rfl⟩ := heq
          exact speculated_first hv draft
        · rename_i d more s'' hpropose
          obtain ⟨hcpu, hfirstToken, rfl, hd⟩ := proposeDrafts_drafted ⟨rfl, rfl⟩ hpropose
          simp only [hcpu, Bool.false_or, Bool.false_eq_true, if_false] at hok hpropose
          obtain ⟨ts, rfl, hkept⟩ := verifyDrafts_ok hfirst hv ⟨hd.first, hd.ends, hd.room⟩
            (fun hmargin hbatch hl => hlost ⟨d, more, not_or.mp hwanted, hok,
              congrArg Prod.fst hpropose, hmargin, hbatch, hl⟩) heq
          exact hkept.speculated hfirstToken

end Cycle

/-! ### A failed replay -/

def replaySwitches : Switches where
  cpu := false
  mtpReady := true
  mtpDraftTokens := 2
  ctxSize := 100
  strict := false
  marginThreshold := false
  batchVerify := false
  capturePrefix1 := false
  exactReplay := true
  forceSnapshot := false

/-- Good drafts, and every step succeeds but the replay of the second draft. -/
def replayOutcomes : Outcomes ℕ where
  eval := true
  probe := some 2
  draft := fun _ => some 3
  marginLow := false
  marginDecode := true
  snapshot := true
  decode2 := true
  commitPrefix1 := true
  verify := true
  replay := fun i => i = 0
  readLastRow := true
  readFirstRow := true
  replayOne := true
  verifyAgain := true
  readRowAgain := true
  sequential := fun _ => true
  readBack := true

def oneToken : State ℕ ℕ where
  checkpoint := [0]
  checkpointValid := true
  graph := some [0]
  logits := some 1
  mtpDraft := none

/-- The call returns three tokens, and the checkpoint grew by two. -/
theorem evalSpeculativeArgmax_replayLost :
    ¬ ∀ accepted s', evalSpeculativeArgmax countTarget replaySwitches replayOutcomes oneToken 1 4 9 4 =
        (some accepted, s') → accepted ≠ [] → Speculated countTarget 9 oneToken 1 accepted s' := by
  intro h
  have hspec := h [1, 2, 3] _ rfl (by simp)
  exact absurd hspec.checkpoint (by decide)

theorem evalSpeculativeArgmax_greedy_iff_oneToken :
    (∀ accepted s', evalSpeculativeArgmax countTarget replaySwitches replayOutcomes oneToken 1 4 9 4 =
        (some accepted, s') → accepted ≠ [] → Speculated countTarget 9 oneToken 1 accepted s') ↔
      ¬ ∃ d more, CycleLost countTarget replaySwitches replayOutcomes oneToken 1 4 9 4 d more :=
  evalSpeculativeArgmax_greedy_iff ⟨rfl, rfl⟩ rfl

end Ds4Studio.Session
