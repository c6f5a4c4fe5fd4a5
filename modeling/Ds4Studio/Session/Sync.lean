import Ds4Studio.Session.State

/-!
Bringing a session to a prompt. A prompt that extends a valid checkpoint is
prefilled from there, in chunks or token by token; any other prompt starts from
an empty graph. A sync may be cancelled between its steps and may fail in each
of them, and payload loads, rewinds and invalidation move the session as well.
-/

namespace Ds4Studio.Session

open List

variable {Tok Log : Type*}

/-- The configuration a sync depends on. `streams` says for which numbers of
tokens a prefill runs decode by decode from streamed weights. -/
structure Config where
  cpu : Bool
  ctxSize : ℕ
  prefillCap : ℕ
  rawCap : ℕ
  resumeMin : ℕ
  streams : ℕ → Bool
  coldStreaming : Bool

/-- What the backend and the caller do during a sync: the polls of the cancel
callback inside the loops, and the outcome of every chunk or token. -/
structure SyncOutcomes where
  cancelOnEntry : Bool
  reset : Bool
  cancel : ℕ → Bool
  step : ℕ → Bool

inductive SyncResult
  | ok | interrupted | error

/-- The graph after a run of tokens at a position. -/
def extendAt (graph : Option (List Tok)) (pos : ℕ) (tokens : List Tok) : Option (List Tok) :=
  match graph with
  | some held => if held.length = pos then some (held ++ tokens) else none
  | none => none

/-- `ds4_session_note_prefill_progress` -/
def notePrefillProgress (prompt : List Tok) (current : ℕ) (s : State Tok Log) : State Tok Log :=
  if 0 < current ∧ current ≤ prompt.length then
    { s with checkpoint := prompt.take current, checkpointValid := true, mtpDraft := none }
  else s

/-- The size of the chunk at a position: resumed chunks end where those of a
cold prompt do. -/
def chunkSize (cfg : Config) (start stop pos : ℕ) : ℕ :=
  let cap := if start = 0 then cfg.prefillCap else min cfg.prefillCap cfg.rawCap
  let aligned :=
    if start ≠ 0 ∧ pos % cfg.prefillCap ≠ 0 then min cap (cfg.prefillCap - pos % cfg.prefillCap)
    else cap
  min (stop - pos) aligned

/-- A loop of a prefill: whether it went through, and whether it was cancelled. -/
structure Prefilled (Tok Log : Type*) where
  ok : Bool
  cancelled : Bool
  state : State Tok Log

/-- The chunk loop of `metal_graph_prefill_chunked_range`; the first number
bounds the chunks that are left. -/
def chunkLoop (T : Target Tok Log) (cfg : Config) (o : SyncOutcomes) (prompt : List Tok)
    (start stop : ℕ) : ℕ → ℕ → ℕ → State Tok Log → Prefilled Tok Log
  | 0, _, _, s => ⟨true, false, s⟩
  | fuel + 1, i, pos, s =>
      if pos < stop then
        if o.cancel (2 * i) then ⟨true, true, s⟩
        else
          let stopAt := pos + chunkSize cfg start stop pos
          if o.step i then
            let graph := extendAt s.graph pos ((prompt.take stopAt).drop pos)
            let s := notePrefillProgress prompt stopAt
              { s with graph := graph, logits := graph.map T.logits }
            if o.cancel (2 * i + 1) then ⟨true, true, s⟩
            else chunkLoop T cfg o prompt start stop fuel (i + 1) stopAt s
          else ⟨false, false, { s with graph := none, logits := none }⟩
      else ⟨true, false, s⟩

/-- The token loop of `metal_graph_prefill_decode_streaming_range`. Logits are
read and progress is reported behind the last token only. -/
def streamLoop (T : Target Tok Log) (o : SyncOutcomes) (progress : Bool) (prompt : List Tok)
    (stop : ℕ) : ℕ → ℕ → List Tok → State Tok Log → Prefilled Tok Log
  | _, _, [], s => ⟨true, false, s⟩
  | i, pos, t :: rest, s =>
      if o.cancel (2 * i) then ⟨true, true, s⟩
      else if o.step i then
        let graph := decodeAt s.graph pos t
        let s := { s with graph := graph }
        let s :=
          if pos + 1 = stop then
            let s := { s with logits := graph.map T.logits }
            if progress then notePrefillProgress prompt stop s else s
          else s
        if o.cancel (2 * i + 1) then ⟨true, true, s⟩
        else streamLoop T o progress prompt stop (i + 1) (pos + 1) rest s
      else ⟨false, false, { s with graph := none, logits := none }⟩

def usesStreaming (cfg : Config) (start n : ℕ) : Bool :=
  (start ≠ 0 || cfg.coldStreaming) && n ≠ 0 && cfg.streams n

/-- `metal_graph_prefill_chunked_range` for the rest of the prompt. -/
def prefillChunkedRange (T : Target Tok Log) (cfg : Config) (o : SyncOutcomes) (prompt : List Tok)
    (start : ℕ) (s : State Tok Log) : Prefilled Tok Log :=
  let n := prompt.length - start
  if n = 0 ∨ cfg.prefillCap = 0 then ⟨false, false, s⟩
  else if usesStreaming cfg start n then
    streamLoop T o true prompt prompt.length 0 start (prompt.drop start)
      (notePrefillProgress prompt start s)
  else if start ≠ 0 ∧ cfg.rawCap = 0 then ⟨false, false, s⟩
  else chunkLoop T cfg o prompt start prompt.length n 0 start (notePrefillProgress prompt start s)

/-- `metal_graph_prefill_raw_swa`: one batch, which no longer listens to the
cancel callback, or the streamed loop. -/
def prefillRawSwa (T : Target Tok Log) (cfg : Config) (o : SyncOutcomes) (prompt : List Tok)
    (s : State Tok Log) : Prefilled Tok Log :=
  if prompt.length = 0 ∨ cfg.prefillCap < prompt.length then ⟨false, false, s⟩
  else if usesStreaming cfg 0 prompt.length then
    streamLoop T o false prompt prompt.length 0 0 prompt s
  else if o.step 0 then
    let graph := extendAt s.graph 0 prompt
    ⟨true, false, { s with graph := graph, logits := graph.map T.logits }⟩
  else ⟨false, false, { s with graph := none, logits := none }⟩

/-- The one-token loop that extends a checkpoint by a short suffix. On the CPU no
token can fail. -/
def extendLoop (T : Target Tok Log) (cfg : Config) (o : SyncOutcomes) :
    ℕ → List Tok → State Tok Log → SyncResult × State Tok Log
  | _, [], s => (.ok, s)
  | i, t :: rest, s =>
      if o.cancel i then (.interrupted, { s with checkpointValid := true, mtpDraft := none })
      else if cfg.cpu || o.step i then
        let graph := decodeAt s.graph s.checkpoint.length t
        extendLoop T cfg o (i + 1) rest
          { s with checkpoint := s.checkpoint ++ [t], graph := graph, logits := graph.map T.logits }
      else (.error, { s with checkpointValid := false, graph := none, logits := none })

/-- The rest of a sync whose prompt extends the checkpoint. -/
def resumeSync (T : Target Tok Log) (cfg : Config) (o : SyncOutcomes)
    (prompt : List Tok) (s : State Tok Log) : SyncResult × State Tok Log :=
  let s := { s with mtpDraft := none }
  let start := s.checkpoint.length
  let suffix := prompt.length - start
  if cfg.cpu = false ∧ 0 < suffix ∧ cfg.resumeMin ≤ suffix then
    let r := prefillChunkedRange T cfg o prompt start s
    if r.cancelled then (.interrupted, { r.state with checkpointValid := true, mtpDraft := none })
    else if r.ok then (.ok, { r.state with checkpoint := prompt, checkpointValid := true })
    else (.error, { r.state with checkpointValid := false })
  else extendLoop T cfg o 0 (prompt.drop start) s

/-- The rest of a sync that starts from an empty graph. -/
def coldSync (T : Target Tok Log) (cfg : Config) (o : SyncOutcomes) (prompt : List Tok)
    (s : State Tok Log) : SyncResult × State Tok Log :=
  if cfg.cpu then
    (.ok, { s with
      checkpoint := prompt
      checkpointValid := true
      graph := some prompt
      logits := some (T.logits prompt)
      mtpDraft := none })
  else
    let s := { s with checkpoint := [], checkpointValid := false, mtpDraft := none }
    if o.reset then
      let s := { s with graph := some [] }
      if cfg.prefillCap < prompt.length then
        let r := prefillChunkedRange T cfg o prompt 0 s
        if r.cancelled then
          (.interrupted,
            { r.state with checkpointValid := 0 < r.state.checkpoint.length, mtpDraft := none })
        else if r.ok then
          (.ok, { r.state with checkpoint := prompt, checkpointValid := true, mtpDraft := none })
        else (.error, { r.state with checkpointValid := false })
      else
        let r := prefillRawSwa T cfg o prompt s
        if r.cancelled then (.interrupted, r.state)
        else if r.ok then
          (.ok, { r.state with checkpoint := prompt, checkpointValid := true, mtpDraft := none })
        else (.error, { r.state with checkpointValid := false })
    else (.error, { s with graph := none })

/-- `ds4_session_sync` on a local session, one whose `s->distributed` is null. -/
def sessionSync [DecidableEq Tok] (T : Target Tok Log) (cfg : Config) (o : SyncOutcomes)
    (prompt : List Tok) (s : State Tok Log) : SyncResult × State Tok Log :=
  if prompt.length = 0 ∨ cfg.ctxSize ≤ prompt.length then (.error, s)
  else if o.cancelOnEntry then (.interrupted, s)
  else if s.checkpointValid = true ∧ s.checkpoint <+: prompt then resumeSync T cfg o prompt s
  else coldSync T cfg o prompt s

/-! ### The other operations -/

/-- The part of a payload that C code outside the tensors looks at: its tokens,
its logits, and the tokens its rows and frontiers belong to. -/
structure Payload (Tok Log : Type*) where
  tokens : List Tok
  logits : Option Log
  graph : Option (List Tok)

/-- `ds4_session_save_payload` -/
def sessionSavePayload (s : State Tok Log) : Option (Payload Tok Log) :=
  if s.checkpointValid then some ⟨s.checkpoint, s.logits, s.graph⟩ else none

/-- Where a load that fails stops: in front of the logits, behind their first byte
but in front of the checkpoint's invalidation, or behind that. -/
inductive LoadStop
  | header | counts | tensors

/-- `ds4_session_load_payload`: the logits of the session are overwritten before
the row counts are checked. -/
def sessionLoadPayload (p : Payload Tok Log) (stop : Option LoadStop) (s : State Tok Log) :
    State Tok Log :=
  match stop with
  | some .header => s
  | some .counts => { s with logits := p.logits }
  | some .tensors =>
      { s with logits := p.logits, checkpointValid := false, graph := none, mtpDraft := none }
  | none =>
      { s with
        checkpoint := p.tokens
        checkpointValid := true
        graph := p.graph
        logits := p.logits
        mtpDraft := none }

/-- `ds4_session_rewind` -/
def sessionRewind (pos : ℤ) (s : State Tok Log) : State Tok Log :=
  { s with checkpoint := s.checkpoint.take pos.toNat, mtpDraft := none }

/-- `ds4_session_invalidate` -/
def sessionInvalidate (s : State Tok Log) : State Tok Log :=
  { s with checkpointValid := false, checkpoint := [], mtpDraft := none }

/-- `ds4_session_pos` -/
def sessionPos (s : State Tok Log) : ℕ := s.checkpoint.length

/-! ### Loops -/

/-- A valid checkpoint describes the graph and the logits. -/
def Consistent (T : Target Tok Log) (s : State Tok Log) : Prop :=
  s.checkpointValid = true → s.Describes T

/-- The state in front of a position of a chunked prefill. The logits are known
behind the first chunk, and in front of it when the prefill resumes. -/
structure AtPos (T : Target Tok Log) (prompt : List Tok) (known : Prop) (pos : ℕ)
    (s : State Tok Log) : Prop where
  graph : s.graph = some (prompt.take pos)
  checkpoint : s.checkpoint = prompt.take pos
  logits : known ∨ 0 < pos → s.logits = some (T.logits (prompt.take pos))

variable {T : Target Tok Log} {s : State Tok Log} {prompt : List Tok} {known : Prop}

theorem AtPos.describes {pos : ℕ} (h : AtPos T prompt known pos s) (hk : known ∨ 0 < pos) :
    s.Describes T :=
  ⟨by rw [h.graph, h.checkpoint], by rw [h.logits hk, h.checkpoint]⟩

theorem extendAt_take {pos stop : ℕ} (hpos : pos ≤ stop) (hstop : stop ≤ prompt.length) :
    extendAt (some (prompt.take pos)) pos ((prompt.take stop).drop pos) =
      some (prompt.take stop) := by
  have hlen : (prompt.take pos).length = pos := by
    rw [length_take]
    omega
  have hsplit : prompt.take pos ++ (prompt.take stop).drop pos = prompt.take stop := by
    have htake : (prompt.take stop).take pos = prompt.take pos := by
      rw [take_take]
      congr 1
      omega
    rw [← htake, take_append_drop]
  simp [extendAt, hlen, hsplit]

variable {cfg : Config}

theorem chunkSize_pos {start stop pos : ℕ} (hcap : cfg.prefillCap ≠ 0)
    (hraw : start = 0 ∨ cfg.rawCap ≠ 0) (hpos : pos < stop) : 0 < chunkSize cfg start stop pos := by
  have hmod := Nat.mod_lt pos (Nat.pos_of_ne_zero hcap)
  have hraw' : start ≠ 0 → 0 < cfg.rawCap := by omega
  unfold chunkSize
  by_cases hstart : start = 0
  · simp only [hstart, if_true, ne_eq, not_true, false_and, if_false]
    omega
  · have := hraw' hstart
    simp only [hstart, if_false, ne_eq, not_false_eq_true, true_and]
    split <;> omega

theorem chunkSize_le (cfg : Config) (start stop pos : ℕ) :
    chunkSize cfg start stop pos ≤ stop - pos := by
  exact min_le_left _ _

variable {o : SyncOutcomes}

theorem chunkLoop_spec {start : ℕ} (hcap : cfg.prefillCap ≠ 0) (hraw : start = 0 ∨ cfg.rawCap ≠ 0)
    (fuel i pos : ℕ) (s : State Tok Log) (hs : AtPos T prompt known pos s)
    (hpos : pos ≤ prompt.length) (hfuel : prompt.length - pos ≤ fuel) :
    let r := chunkLoop T cfg o prompt start prompt.length fuel i pos s
    (r.cancelled = true → ∃ at', AtPos T prompt known at' r.state) ∧
      (r.cancelled = false → r.ok = true → AtPos T prompt known prompt.length r.state) := by
  induction fuel generalizing i pos s with
  | zero =>
    have hend : pos = prompt.length := by omega
    subst hend
    simpa [chunkLoop] using hs
  | succ fuel ih =>
    rw [chunkLoop]
    split
    · rename_i hlt
      split
      · exact ⟨fun _ => ⟨pos, hs⟩, by simp⟩
      · split
        · have hsize := chunkSize_pos hcap hraw hlt
          have hbound := chunkSize_le cfg start prompt.length pos
          have hnext : AtPos T prompt known (pos + chunkSize cfg start prompt.length pos)
              (notePrefillProgress prompt (pos + chunkSize cfg start prompt.length pos)
                { s with
                  graph := extendAt s.graph pos
                    ((prompt.take (pos + chunkSize cfg start prompt.length pos)).drop pos)
                  logits := (extendAt s.graph pos
                    ((prompt.take (pos + chunkSize cfg start prompt.length pos)).drop pos)).map
                      T.logits }) := by
            rw [notePrefillProgress, if_pos ⟨by omega, by omega⟩, hs.graph,
              extendAt_take (by omega) (by omega)]
            exact ⟨rfl, rfl, fun _ => rfl⟩
          split
          · exact ⟨fun _ => ⟨_, hnext⟩, by simp⟩
          · exact ih _ _ _ hnext (by omega) (by omega)
        · exact ⟨by simp, by simp⟩
    · have hend : pos = prompt.length := by omega
      subst hend
      exact ⟨by simp, fun _ _ => hs⟩

/-- The cancel callback fires between the first and the last of `n` streamed
tokens: behind one that went through and in front of one that did not start. The
polls of token `i` are `2 * i` in front of it and `2 * i + 1` behind it. -/
def CutFrom (o : SyncOutcomes) (i n : ℕ) : Prop :=
  ∃ j, 2 * i < j ∧ j + 1 < 2 * n ∧ o.cancel j = true ∧
    (∀ k, 2 * i ≤ k → k < j → o.cancel k = false) ∧ ∀ k, i ≤ k → 2 * k < j → o.step k = true

theorem CutFrom.succ {i n : ℕ} (h : CutFrom o (i + 1) n) (hbefore : o.cancel (2 * i) = false)
    (hbehind : o.cancel (2 * i + 1) = false) (hstep : o.step i = true) : CutFrom o i n := by
  obtain ⟨j, hj, hn, hfires, hquiet, hdone⟩ := h
  refine ⟨j, by omega, hn, hfires, fun k hk hkj => ?_, fun k hk hkj => ?_⟩
  · by_cases hk0 : k = 2 * i
    · rwa [hk0]
    · by_cases hk1 : k = 2 * i + 1
      · rwa [hk1]
      · exact hquiet k (by omega) hkj
  · by_cases hki : k = i
    · rwa [hki]
    · exact hdone k (by omega) hkj

theorem CutFrom.behind {i n : ℕ} (hbefore : o.cancel (2 * i) = false)
    (hbehind : o.cancel (2 * i + 1) = true) (hstep : o.step i = true) (hn : i + 1 < n) :
    CutFrom o i n := by
  refine ⟨2 * i + 1, by omega, by omega, hbehind, fun k hk hkj => ?_, fun k hk hkj => ?_⟩
  · have : k = 2 * i := by omega
    rwa [this]
  · have : k = i := by omega
    rwa [this]

theorem CutFrom.beforeNext {i n : ℕ} (hbefore : o.cancel (2 * i) = false)
    (hbehind : o.cancel (2 * i + 1) = false) (hstep : o.step i = true)
    (hfires : o.cancel (2 * (i + 1)) = true) (hn : i + 1 < n) : CutFrom o i n := by
  refine ⟨2 * (i + 1), by omega, by omega, hfires, fun k hk hkj => ?_, fun k hk hkj => ?_⟩
  · by_cases hk0 : k = 2 * i
    · rwa [hk0]
    · have : k = 2 * i + 1 := by omega
      rwa [this]
  · have : k = i := by omega
    rwa [this]

/-- The state where the streamed loop is cut: the checkpoint is still the one in front of it. -/
structure Cut (o : SyncOutcomes) (i n : ℕ) (s s' : State Tok Log) : Prop where
  cuts : CutFrom o i n
  checkpoint : s'.checkpoint = s.checkpoint
  checkpointValid : s'.checkpointValid = s.checkpointValid

/-- The state behind the last streamed token. -/
structure Streamed (T : Target Tok Log) (progress : Bool) (prompt : List Tok)
    (s s' : State Tok Log) : Prop where
  graph : s'.graph = some prompt
  logits : s'.logits = some (T.logits prompt)
  checkpoint : s'.checkpoint = if progress then prompt else s.checkpoint
  checkpointValid : progress = false → s'.checkpointValid = s.checkpointValid

theorem streamLoop_spec (o : SyncOutcomes) (progress : Bool) (rest : List Tok) (i pos : ℕ)
    (s : State Tok Log) (hgraph : s.graph = some (prompt.take pos))
    (hrest : prompt.drop pos = rest) :
    let r := streamLoop T o progress prompt prompt.length i pos rest s
    (r.cancelled = true →
        r.state = s ∧ rest ≠ [] ∧ o.cancel (2 * i) = true ∨
          Streamed T progress prompt s r.state ∨ Cut o i (i + rest.length) s r.state) ∧
      (r.cancelled = false → r.ok = true → rest ≠ [] → Streamed T progress prompt s r.state) := by
  induction rest generalizing i pos s with
  | nil => simp [streamLoop]
  | cons t rest ih =>
    have hlt : pos < prompt.length := by
      have := congrArg length hrest
      rw [length_drop, length_cons] at this
      omega
    have htail : prompt.drop (pos + 1) = rest := by rw [← tail_drop, hrest, tail_cons]
    have hhead : prompt.take pos ++ [t] = prompt.take (pos + 1) := by
      rw [take_add, hrest]
      simp
    have hlen : (prompt.take pos).length = pos := by
      rw [length_take]
      omega
    have hdecode : decodeAt s.graph pos t = some (prompt.take (pos + 1)) := by
      simp [hgraph, decodeAt, hlen, hhead]
    rw [streamLoop]
    by_cases hbefore : o.cancel (2 * i) = true
    · rw [if_pos hbefore]
      exact ⟨fun _ => .inl ⟨rfl, by simp, hbefore⟩, by simp⟩
    rw [if_neg hbefore]
    rw [Bool.not_eq_true] at hbefore
    by_cases hstep : o.step i = true
    · rw [if_pos hstep]
      by_cases hlast : pos + 1 = prompt.length
      · -- the last token: logits are read, and progress is noted where it is listened to
        have hnil : rest = [] := by rw [← htail, hlast, drop_length]
        have hfull : prompt.take (pos + 1) = prompt := by rw [hlast, take_length]
        have hdone : Streamed T progress prompt s
            (if progress then
              notePrefillProgress prompt prompt.length
                { s with
                  graph := decodeAt s.graph pos t
                  logits := (decodeAt s.graph pos t).map T.logits }
            else
              { s with
                graph := decodeAt s.graph pos t
                logits := (decodeAt s.graph pos t).map T.logits }) := by
          have hpos : 0 < prompt.length := by omega
          rw [hdecode, hfull]
          cases progress <;> constructor <;> simp [notePrefillProgress, hpos]
        simp only [hlast, if_true, hnil, streamLoop]
        split
        · exact ⟨fun _ => .inr (.inl hdone), by simp⟩
        · exact ⟨by simp, fun _ _ _ => hdone⟩
      · simp only [hlast, if_false]
        have hne : rest ≠ [] := by
          intro hnil
          have := congrArg length htail
          rw [hnil, length_drop, length_nil] at this
          omega
        have hmore : i + 1 < i + (t :: rest).length := by
          have := length_pos_of_ne_nil hne
          rw [length_cons]
          omega
        by_cases hbehind : o.cancel (2 * i + 1) = true
        · simp only [hbehind, if_true]
          exact ⟨fun _ => .inr (.inr ⟨.behind hbefore hbehind hstep hmore, rfl, rfl⟩), by simp⟩
        · simp only [hbehind, Bool.false_eq_true, if_false]
          rw [Bool.not_eq_true] at hbehind
          obtain ⟨hcancelled, hok⟩ :=
            ih (i + 1) (pos + 1) { s with graph := decodeAt s.graph pos t } hdecode htail
          have hstreamed : ∀ s', Streamed T progress prompt
              { s with graph := decodeAt s.graph pos t } s' → Streamed T progress prompt s s' :=
            fun s' h => ⟨h.graph, h.logits, h.checkpoint, h.checkpointValid⟩
          refine ⟨fun h => ?_, fun h hr _ => hstreamed _ (hok h hr hne)⟩
          rcases hcancelled h with ⟨heq, -, hfires⟩ | hdone | hcut
          · exact .inr (.inr ⟨.beforeNext hbefore hbehind hstep hfires hmore, by rw [heq], by rw [heq]⟩)
          · exact .inr (.inl (hstreamed _ hdone))
          · rw [show i + 1 + rest.length = i + (t :: rest).length by
              rw [length_cons]; omega] at hcut
            exact .inr (.inr ⟨hcut.cuts.succ hbefore hbehind hstep, hcut.checkpoint, hcut.checkpointValid⟩)
    · rw [if_neg hstep]
      exact ⟨by simp, by simp⟩

/-! ### One sync -/

theorem AtPos.noted {pos : ℕ} (h : AtPos T prompt known pos s) :
    AtPos T prompt known pos (notePrefillProgress prompt pos s) := by
  unfold notePrefillProgress
  split
  · exact ⟨h.graph, rfl, h.logits⟩
  · exact h

theorem prefillChunkedRange_spec (cfg : Config) (o : SyncOutcomes) {start : ℕ}
    (hs : AtPos T prompt known start s) :
    let r := prefillChunkedRange T cfg o prompt start s
    let n := prompt.length - start
    (r.cancelled = true →
        (∃ pos, AtPos T prompt known pos r.state) ∨
          cfg.prefillCap ≠ 0 ∧ usesStreaming cfg start n = true ∧
            Cut o 0 n (notePrefillProgress prompt start s) r.state) ∧
      (r.cancelled = false → r.ok = true →
        r.state.graph = some prompt ∧ r.state.logits = some (T.logits prompt)) := by
  have hnoted := hs.noted
  intro r n
  simp only [r, prefillChunkedRange]
  by_cases hempty : prompt.length - start = 0 ∨ cfg.prefillCap = 0
  · simp [hempty]
  rw [if_neg hempty]
  by_cases hstreams : usesStreaming cfg start (prompt.length - start) = true
  · rw [if_pos hstreams]
    have hrest : prompt.drop start ≠ [] := by
      intro hnil
      have := congrArg length hnil
      rw [length_drop] at this
      exact hempty (.inl this)
    obtain ⟨hcancelled, hok⟩ := streamLoop_spec o true (prompt.drop start)
      0 start (notePrefillProgress prompt start s) hnoted.graph rfl
    refine ⟨fun h => ?_, fun h hr => ?_⟩
    · rcases hcancelled h with ⟨heq, -⟩ | hdone | hcut
      · exact .inl ⟨start, by rw [heq]; exact hnoted⟩
      · refine .inl ⟨prompt.length, ?_⟩
        constructor <;> simp [hdone.graph, hdone.checkpoint, hdone.logits]
      · rw [Nat.zero_add, length_drop] at hcut
        exact .inr ⟨fun hcap => hempty (.inr hcap), hstreams, hcut⟩
    · have hdone := hok h hr hrest
      exact ⟨hdone.graph, hdone.logits⟩
  rw [if_neg hstreams]
  by_cases hraw : start ≠ 0 ∧ cfg.rawCap = 0
  · simp [hraw]
  rw [if_neg hraw]
  have hcap : cfg.prefillCap ≠ 0 := fun hcap => hempty (.inr hcap)
  have hraw' : start = 0 ∨ cfg.rawCap ≠ 0 := by
    by_cases hstart : start = 0
    · exact .inl hstart
    · exact .inr fun hzero => hraw ⟨hstart, hzero⟩
  obtain ⟨hcancelled, hok⟩ := chunkLoop_spec (o := o) hcap hraw' (prompt.length - start) 0 start
    (notePrefillProgress prompt start s) hnoted (by omega) le_rfl
  refine ⟨fun h => .inl (hcancelled h), fun h hr => ?_⟩
  have hdone := hok h hr
  have hpos : 0 < prompt.length := by omega
  exact ⟨by rw [hdone.graph, take_length], by rw [hdone.logits (.inr hpos), take_length]⟩

/-- A sync that resumes a checkpoint is cancelled between two streamed tokens. -/
def CutsStream (cfg : Config) (o : SyncOutcomes) (prompt : List Tok) (s : State Tok Log) : Prop :=
  let n := prompt.length - s.checkpoint.length
  cfg.cpu = false ∧ prompt.length < cfg.ctxSize ∧ o.cancelOnEntry = false ∧
    s.checkpointValid = true ∧ s.checkpoint <+: prompt ∧ cfg.resumeMin ≤ n ∧
    cfg.prefillCap ≠ 0 ∧ usesStreaming cfg s.checkpoint.length n = true ∧ CutFrom o 0 n

/-- What a sync that went through leaves behind. -/
structure Synced (T : Target Tok Log) (prompt : List Tok) (s : State Tok Log) : Prop where
  checkpoint : s.checkpoint = prompt
  checkpointValid : s.checkpointValid = true
  graph : s.graph = some prompt
  logits : s.logits = some (T.logits prompt)

theorem Synced.describes (h : Synced T prompt s) : s.Describes T :=
  ⟨by rw [h.graph, h.checkpoint], by rw [h.logits, h.checkpoint]⟩

theorem extendLoop_spec (cfg : Config) (o : SyncOutcomes) (rest : List Tok) (i : ℕ)
    (s : State Tok Log) (hs : s.Describes T) (hvalid : s.checkpointValid = true) :
    let r := extendLoop T cfg o i rest s
    Consistent T r.2 ∧ (r.1 = .ok → Synced T (s.checkpoint ++ rest) r.2) := by
  induction rest generalizing i s with
  | nil =>
    have hsame : Synced T s.checkpoint s := ⟨rfl, hvalid, hs.graph, hs.logits⟩
    simpa [extendLoop] using ⟨fun _ => hs, hsame⟩
  | cons t rest ih =>
    rw [extendLoop]
    split
    · exact ⟨fun _ => ⟨hs.graph, hs.logits⟩, by simp⟩
    · split
      · have hnext : decodeAt s.graph s.checkpoint.length t = some (s.checkpoint ++ [t]) := by
          simp [hs.graph]
        have := ih (i + 1)
          { s with
            checkpoint := s.checkpoint ++ [t]
            graph := decodeAt s.graph s.checkpoint.length t
            logits := (decodeAt s.graph s.checkpoint.length t).map T.logits }
          ⟨hnext, by simp [hnext]⟩ hvalid
        simpa [append_assoc] using this
      · exact ⟨by simp [Consistent], by simp⟩

theorem resumeSync_spec (hs : s.Describes T) (hvalid : s.checkpointValid = true)
    (hextends : s.checkpoint <+: prompt) (hctx : prompt.length < cfg.ctxSize)
    (hentry : o.cancelOnEntry = false) :
    let r := resumeSync T cfg o prompt s
    (¬ CutsStream cfg o prompt s → Consistent T r.2) ∧ (r.1 = .ok → Synced T prompt r.2) := by
  have htake : prompt.take s.checkpoint.length = s.checkpoint :=
    (prefix_iff_eq_take.mp hextends).symm
  simp only [resumeSync]
  split
  · rename_i hlong
    have hat : AtPos T prompt True s.checkpoint.length { s with mtpDraft := none } :=
      ⟨by rw [hs.graph, htake], htake.symm, fun _ => by rw [hs.logits, htake]⟩
    obtain ⟨hcancelled, hok⟩ := prefillChunkedRange_spec cfg o hat
    split
    · rename_i hc
      refine ⟨fun hcut _ => ?_, by simp⟩
      rcases hcancelled hc with ⟨pos, hpos⟩ | ⟨hcap, hstreams, hcuts⟩
      · exact ⟨(hpos.describes (.inl trivial)).graph, (hpos.describes (.inl trivial)).logits⟩
      · exact absurd ⟨hlong.1, hctx, hentry, hvalid, hextends, hlong.2.2, hcap, hstreams,
          hcuts.cuts⟩ hcut
    · rename_i hc
      rw [Bool.not_eq_true] at hc
      split
      · rename_i hr
        have hdone := hok hc hr
        have hsynced : Synced T prompt
            { (prefillChunkedRange T cfg o prompt s.checkpoint.length
                { s with mtpDraft := none }).state with
              checkpoint := prompt
              checkpointValid := true } := ⟨rfl, rfl, hdone.1, hdone.2⟩
        exact ⟨fun _ _ => hsynced.describes, fun _ => hsynced⟩
      · exact ⟨by simp [Consistent], by simp⟩
  · have hsplit : s.checkpoint ++ prompt.drop s.checkpoint.length = prompt := by
      rw [← prefix_iff_eq_append]
      exact hextends
    have := extendLoop_spec cfg o (prompt.drop s.checkpoint.length) 0
      { s with mtpDraft := none } ⟨hs.graph, hs.logits⟩ hvalid
    rw [hsplit] at this
    exact ⟨fun _ => this.1, this.2⟩

theorem prefillRawSwa_spec (cfg : Config) (o : SyncOutcomes) (prompt : List Tok)
    (hs : s.graph = some []) :
    let r := prefillRawSwa T cfg o prompt s
    (r.cancelled = true → r.state.checkpointValid = s.checkpointValid) ∧
      (r.cancelled = false → r.ok = true →
        r.state.graph = some prompt ∧ r.state.logits = some (T.logits prompt)) := by
  simp only [prefillRawSwa]
  by_cases hfits : prompt.length = 0 ∨ cfg.prefillCap < prompt.length
  · rw [if_pos hfits]
    simp
  rw [if_neg hfits]
  by_cases hstreams : usesStreaming cfg 0 prompt.length = true
  · rw [if_pos hstreams]
    have hrest : prompt ≠ [] := by
      intro hnil
      exact hfits (.inl (by rw [hnil, length_nil]))
    obtain ⟨hcancelled, hok⟩ := streamLoop_spec (T := T) o false prompt
      0 0 s (by simpa using hs) (drop_zero)
    refine ⟨fun h => ?_, fun h hr => ?_⟩
    · rcases hcancelled h with ⟨heq, -⟩ | hdone | hcut
      · rw [heq]
      · exact hdone.checkpointValid rfl
      · exact hcut.checkpointValid
    · have hdone := hok h hr hrest
      exact ⟨hdone.graph, hdone.logits⟩
  rw [if_neg hstreams]
  by_cases hstep : o.step 0 = true
  · simp [hstep, hs, extendAt]
  · simp [hstep]

theorem coldSync_spec :
    let r := coldSync T cfg o prompt s
    Consistent T r.2 ∧ (r.1 = .ok → Synced T prompt r.2) := by
  simp only [coldSync]
  split
  · exact ⟨fun _ => ⟨rfl, rfl⟩, fun _ => ⟨rfl, rfl, rfl, rfl⟩⟩
  split
  · split
    · have hat : AtPos T prompt False 0
          ({ s with
            checkpoint := [], checkpointValid := false, graph := some [], mtpDraft := none }) :=
        ⟨rfl, rfl, by simp⟩
      obtain ⟨hcancelled, hok⟩ := prefillChunkedRange_spec cfg o hat
      split
      · rename_i hc
        refine ⟨fun hvalid => ?_, by simp⟩
        have hpos := of_decide_eq_true hvalid
        rcases hcancelled hc with ⟨pos, hpos'⟩ | ⟨-, -, hcuts⟩
        · have hlt : 0 < pos := by
            rw [hpos'.checkpoint, length_take] at hpos
            omega
          have := hpos'.describes (.inr hlt)
          exact ⟨this.graph, this.logits⟩
        · rw [hcuts.checkpoint] at hpos
          simp [notePrefillProgress] at hpos
      · rename_i hc
        rw [Bool.not_eq_true] at hc
        split
        · rename_i hr
          have hdone := hok hc hr
          exact ⟨fun _ => ⟨hdone.1, hdone.2⟩, fun _ => ⟨rfl, rfl, hdone.1, hdone.2⟩⟩
        · exact ⟨by simp [Consistent], by simp⟩
    · obtain ⟨hcancelled, hok⟩ := prefillRawSwa_spec (T := T) cfg o prompt
        (s := { s with
          checkpoint := [], checkpointValid := false, graph := some [], mtpDraft := none }) rfl
      split
      · rename_i hc
        refine ⟨fun hvalid => ?_, by simp⟩
        rw [hcancelled hc] at hvalid
        contradiction
      · rename_i hc
        rw [Bool.not_eq_true] at hc
        split
        · rename_i hr
          have hdone := hok hc hr
          exact ⟨fun _ => ⟨hdone.1, hdone.2⟩, fun _ => ⟨rfl, rfl, hdone.1, hdone.2⟩⟩
        · exact ⟨by simp [Consistent], by simp⟩
  · exact ⟨by simp [Consistent], by simp⟩

theorem load_consistent {s saved : State Tok Log} {p : Payload Tok Log}
    (hsaved : Consistent T saved) (hp : sessionSavePayload saved = some p) :
    Consistent T (sessionLoadPayload p none s) := by
  intro _
  unfold sessionSavePayload at hp
  split at hp
  · rename_i hvalid
    obtain rfl := Option.some.inj hp
    exact ⟨(hsaved hvalid).graph, (hsaved hvalid).logits⟩
  · contradiction

/-- What evaluating a list of tokens from an empty session leaves behind. -/
def evalAll (T : Target Tok Log) (tokens : List Tok) : State Tok Log :=
  tokens.foldl (fun s t => (sessionEval T true none s t).2)
    ⟨[], true, some [], some (T.logits []), none⟩

theorem evalAll_concat (T : Target Tok Log) (tokens : List Tok) (t : Tok) :
    evalAll T (tokens ++ [t]) = (sessionEval T true none (evalAll T tokens) t).2 := by
  rw [evalAll, foldl_append]
  rfl

theorem evalAll_synced (T : Target Tok Log) (tokens : List Tok) :
    Synced T tokens (evalAll T tokens) := by
  induction tokens using reverseRecOn with
  | nil => exact ⟨rfl, rfl, rfl, rfl⟩
  | append_singleton tokens t ih =>
    rw [evalAll_concat]
    have hdescribes := sessionEval_describes ih.describes none t
    have hcheckpoint : (sessionEval T true none (evalAll T tokens) t).2.checkpoint =
        tokens ++ [t] := by
      simp [sessionEval, ih.checkpoint]
    exact ⟨hcheckpoint, ih.checkpointValid, by rw [hdescribes.graph, hcheckpoint],
      by rw [hdescribes.logits, hcheckpoint]⟩

variable [DecidableEq Tok]

theorem sessionSync_consistent (hs : Consistent T s) (hcut : ¬ CutsStream cfg o prompt s) :
    Consistent T (sessionSync T cfg o prompt s).2 := by
  unfold sessionSync
  split
  · exact hs
  split
  · exact hs
  rename_i hentry
  rw [Bool.not_eq_true] at hentry
  split
  · rename_i h
    exact (resumeSync_spec (hs h.1) h.1 h.2 (by omega) hentry).1 hcut
  · exact coldSync_spec.1

theorem sessionSync_ok (hs : Consistent T s) (hok : (sessionSync T cfg o prompt s).1 = .ok) :
    Synced T prompt (sessionSync T cfg o prompt s).2 := by
  unfold sessionSync at hok ⊢
  split at hok
  · contradiction
  rename_i hsize
  rw [if_neg hsize]
  split at hok
  · contradiction
  rename_i hentry
  rw [if_neg hentry]
  rw [Bool.not_eq_true] at hentry
  split at hok
  · rename_i h
    rw [if_pos h]
    exact (resumeSync_spec (hs h.1) h.1 h.2 (by omega) hentry).2 hok
  · rename_i h
    rw [if_neg h]
    exact coldSync_spec.2 hok

/-! ### Runs -/

/-- The operations on a session, but for loads that go through. A load that fails
may have read any bytes. With `s->distributed` a sync or an evaluation is carried out
by the coordinator: it commits the tokens of its own layers span by span while other
machines compute the logits, and what it leaves is left open. -/
inductive Op (Tok Log : Type*)
  | sync (o : SyncOutcomes) (prompt : List Tok)
  | eval (ok : Bool) (draft : Option Tok) (token : Tok)
  | failedLoad (p : Payload Tok Log) (stop : LoadStop)
  | rewind (pos : ℤ)
  | invalidate
  | coordinated (left : State Tok Log)

def step (T : Target Tok Log) (cfg : Config) (s : State Tok Log) : Op Tok Log → State Tok Log
  | .sync o prompt => (sessionSync T cfg o prompt s).2
  | .eval ok draft token => (sessionEval T ok draft s token).2
  | .failedLoad p stop => sessionLoadPayload p (some stop) s
  | .rewind pos => sessionRewind pos s
  | .invalidate => sessionInvalidate s
  | .coordinated left => left

/-- Tokens are evaluated on valid sessions only. -/
def Proper (s : State Tok Log) : Op Tok Log → Prop
  | .eval _ _ _ => s.checkpointValid = true
  | _ => True

/-- The operations that leave a valid checkpoint in front of a state it does not
describe: a resumed sync cut between two streamed tokens, a load that fails
between its logits and its row counts, a rewind that drops tokens, and whatever a
coordinator does, whose logits stay behind when a worker fails. -/
def Mislabels (cfg : Config) (s : State Tok Log) : Op Tok Log → Prop
  | .sync o prompt => CutsStream cfg o prompt s
  | .failedLoad _ stop => s.checkpointValid = true ∧ stop = .counts
  | .rewind pos => s.checkpointValid = true ∧ pos.toNat < s.checkpoint.length
  | .coordinated _ => True
  | _ => False

/-- `ds4_session_create`: no checkpoint yet. -/
def State.created : State Tok Log := ⟨[], false, none, none, none⟩

/-- A run of operations that each satisfy a condition in the state they start
from. A load goes through on what a session of another such run saved. -/
inductive Reached (T : Target Tok Log) (cfg : Config) (may : State Tok Log → Op Tok Log → Prop) :
    State Tok Log → Prop
  | created : Reached T cfg may .created
  | step {s : State Tok Log} {op : Op Tok Log} (hs : Reached T cfg may s) (hop : may s op) :
      Reached T cfg may (step T cfg s op)
  | loaded {s saved : State Tok Log} {p : Payload Tok Log} (hs : Reached T cfg may s)
      (hsaved : Reached T cfg may saved) (hp : sessionSavePayload saved = some p) :
      Reached T cfg may (sessionLoadPayload p none s)

/-- The runs without a mislabelling operation. -/
def Labelled (T : Target Tok Log) (cfg : Config) : State Tok Log → Prop :=
  Reached T cfg fun s op => Proper s op ∧ ¬ Mislabels cfg s op

theorem step_consistent {op : Op Tok Log} (hs : Consistent T s) (hop : Proper s op)
    (hgood : ¬ Mislabels cfg s op) : Consistent T (step T cfg s op) := by
  cases op with
  | sync o prompt => exact sessionSync_consistent hs hgood
  | eval ok draft token =>
    cases ok with
    | true => exact fun _ => sessionEval_describes (hs hop) draft token
    | false => simp [step, sessionEval, Consistent]
  | failedLoad p stop =>
    cases stop with
    | header => exact hs
    | counts => exact fun hvalid => absurd ⟨hvalid, rfl⟩ hgood
    | tensors => simp [step, sessionLoadPayload, Consistent]
  | rewind pos =>
    intro hvalid
    have hlen : s.checkpoint.length ≤ pos.toNat := by
      by_contra h
      exact hgood ⟨hvalid, by omega⟩
    have hsame : s.checkpoint.take pos.toNat = s.checkpoint := take_of_length_le hlen
    exact ⟨by rw [step, sessionRewind, hsame]; exact (hs hvalid).graph,
      by rw [step, sessionRewind, hsame]; exact (hs hvalid).logits⟩
  | invalidate => simp [step, sessionInvalidate, Consistent]
  | coordinated left => exact absurd trivial hgood

theorem Labelled.consistent (h : Labelled T cfg s) : Consistent T s := by
  induction h with
  | created => simp [Consistent, State.created]
  | step _ hop ih => exact step_consistent ih hop.1 hop.2
  | loaded _ _ hp _ ihsaved => exact load_consistent ihsaved hp

/-- In every run of a local session without a mislabelling operation a valid
checkpoint describes the graph and the logits, and a sync or an evaluation that goes
through behind it gives what evaluating the whole list from an empty session gives. -/
theorem reached_checkpoint {T : Target Tok Log} {cfg : Config} {s : State Tok Log}
    (h : Labelled T cfg s) :
    (s.checkpointValid = true →
        s.graph = some s.checkpoint ∧ s.logits = some (T.logits s.checkpoint)) ∧
      (∀ o prompt, (sessionSync T cfg o prompt s).1 = .ok →
        let s' := (sessionSync T cfg o prompt s).2
        s'.checkpoint = prompt ∧ s'.checkpointValid = true ∧
          s'.graph = (evalAll T prompt).graph ∧ s'.logits = (evalAll T prompt).logits) ∧
      ∀ draft token, s.checkpointValid = true →
        let s' := (sessionEval T true draft s token).2
        let whole := evalAll T (s.checkpoint ++ [token])
        s'.checkpoint = whole.checkpoint ∧ s'.graph = whole.graph ∧ s'.logits = whole.logits := by
  have hs := h.consistent
  refine ⟨fun hvalid => ⟨(hs hvalid).graph, (hs hvalid).logits⟩, fun o prompt hok => ?_,
    fun draft token hvalid => ?_⟩
  · have hsynced := sessionSync_ok hs hok
    have hwhole := evalAll_synced T prompt
    exact ⟨hsynced.checkpoint, hsynced.checkpointValid, by rw [hsynced.graph, hwhole.graph],
      by rw [hsynced.logits, hwhole.logits]⟩
  · have hdescribes := sessionEval_describes (hs hvalid) draft token
    have hwhole := evalAll_synced T (s.checkpoint ++ [token])
    have hcheckpoint : (sessionEval T true draft s token).2.checkpoint = s.checkpoint ++ [token] :=
      rfl
    exact ⟨by rw [hcheckpoint, hwhole.checkpoint],
      by rw [hdescribes.graph, hcheckpoint, hwhole.graph],
      by rw [hdescribes.logits, hcheckpoint, hwhole.logits]⟩

def graphConfig : Config where
  cpu := false
  ctxSize := 8
  prefillCap := 4
  rawCap := 4
  resumeMin := 4
  streams := fun _ => false
  coldStreaming := false

/-- Nothing is cancelled, nothing fails. -/
def smooth : SyncOutcomes := ⟨false, true, fun _ => false, fun _ => true⟩

/-- A load whose row counts are refused leaves its logits behind a checkpoint that
stays valid. -/
theorem reached_checkpoint_failedLoad :
    ¬ ∀ s, Reached countTarget graphConfig Proper s → s.checkpointValid = true →
      s.graph = some s.checkpoint ∧ s.logits = some (countTarget.logits s.checkpoint) := by
  intro h
  have hsynced : Reached countTarget graphConfig Proper
      (step countTarget graphConfig .created (.sync smooth [1])) := .step .created trivial
  have hloaded : Reached countTarget graphConfig Proper
      (step countTarget graphConfig (step countTarget graphConfig .created (.sync smooth [1]))
        (.failedLoad ⟨[1, 2], some 2, some [1, 2]⟩ .counts)) := .step hsynced trivial
  exact absurd (h _ hloaded rfl).2 (by decide)

theorem reached_checkpoint_synced :
    let s := step countTarget graphConfig .created (.sync smooth [1])
    (s.checkpointValid = true →
        s.graph = some s.checkpoint ∧ s.logits = some (countTarget.logits s.checkpoint)) ∧
      (∀ o prompt, (sessionSync countTarget graphConfig o prompt s).1 = .ok →
        let s' := (sessionSync countTarget graphConfig o prompt s).2
        s'.checkpoint = prompt ∧ s'.checkpointValid = true ∧
          s'.graph = (evalAll countTarget prompt).graph ∧
          s'.logits = (evalAll countTarget prompt).logits) ∧
      ∀ draft token, s.checkpointValid = true →
        let s' := (sessionEval countTarget true draft s token).2
        let whole := evalAll countTarget (s.checkpoint ++ [token])
        s'.checkpoint = whole.checkpoint ∧ s'.graph = whole.graph ∧ s'.logits = whole.logits :=
  reached_checkpoint (.step .created ⟨trivial, by simp [Mislabels, CutsStream, State.created]⟩)

end Ds4Studio.Session
