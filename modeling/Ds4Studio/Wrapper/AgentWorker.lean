import Ds4Studio.Session.Tokens
import Ds4Studio.Wrapper.State

/-!
The worker of the agent runtime: a transcript of its own, and the session that the wrapper
hands to it for a chat. Only what a turn does to the two is kept of the turn; what it appends
and when it compacts is open.
-/

namespace Ds4Studio.Wrapper

open Ds4Studio.Session (Payload State SyncOutcomes SyncResult Target sessionSync sessionEval
  sessionInvalidate sessionLoadPayload sessionSync_leaves)

/-! ### The worker -/

inductive WorkerStatus where
  | idle | running | generating | error

structure AgentWorker where
  transcript : List ℕ
  status : WorkerStatus

variable {Log : Type*}

/-- What an operation of the worker leaves of its transcript and its session. -/
abbrev Worked (Log : Type*) := AgentWorker × State ℕ Log

section
variable (T : Target ℕ Log) (cfg : Session.Config)

/-- `agent_worker_reset_to_sysprompt`, where the worker starts: a stored checkpoint of the
system prompt is loaded, or the prompt is read in. -/
def resetToSysprompt (o : SyncOutcomes) (sys : List ℕ) (loaded : Option (Payload ℕ Log))
    (s : State ℕ Log) : Worked Log :=
  match loaded with
  | some payload => (⟨payload.tokens, .idle⟩, sessionLoadPayload payload none s)
  | none =>
      match sessionSync T cfg o sys s with
      | (.ok, s) => (⟨sys, .idle⟩, s)
      | (_, s) => (⟨sys, .error⟩, s)

/-- `agent_worker_evict_tool_results`, once the shorter transcript is built. -/
def evictToolResults (o : SyncOutcomes) (rebuilt reminder : List ℕ) (p : Worked Log) : Worked Log :=
  match sessionSync T cfg o rebuilt p.2 with
  | (.ok, s) => ({ p.1 with transcript := rebuilt ++ reminder }, s)
  | (_, s) => (p.1, sessionInvalidate s)

/-- The private exchange of a compaction: the request behind the transcript, the tokens of the
summary with whether each is evaluated, and the transcript that is rebuilt from it, unless it
was interrupted, failed or empty. -/
structure Exchange where
  request : List ℕ
  summary : List (Bool × ℕ)
  rebuilt : Option (List ℕ)
  bashUpdate : List ℕ

/-- `agent_worker_compact`; without an exchange there is no room for one. -/
def compact (o o' : SyncOutcomes) (exchange : Option Exchange) (p : Worked Log) :
    Bool × Worked Log :=
  match exchange with
  | none => (false, p)
  | some x =>
      match sessionSync T cfg o (p.1.transcript ++ x.request) p.2 with
      | (.ok, s) =>
          let s := x.summary.foldl (fun s e => (sessionEval T e.1 none s e.2).2) s
          match x.rebuilt with
          | none => (false, p.1, sessionInvalidate s)
          | some rebuilt =>
              match sessionSync T cfg o' rebuilt s with
              | (.ok, s) => (true, { p.1 with transcript := rebuilt ++ x.bashUpdate }, s)
              | (_, s) => (false, p.1, sessionInvalidate s)
      | (_, s) => (false, p.1, sessionInvalidate s)

/-- The status behind the sync that begins a round. -/
def roundStatus : SyncResult → WorkerStatus
  | .ok => .generating
  | .interrupted => .running
  | .error => .error

/-- The sync that begins a round of `worker_run_turn`. -/
def beginRound (o : SyncOutcomes) (p : Worked Log) : Worked Log :=
  match sessionSync T cfg o p.1.transcript p.2 with
  | (result, s) => ({ p.1 with status := roundStatus result }, s)

/-- `worker_accept_generated_token` -/
def acceptGeneratedToken (evalOk : Bool) (draft : Option ℕ) (token : ℕ) (p : Worked Log) :
    Worked Log :=
  match sessionEval T evalOk draft p.2 token with
  | (true, s) => ({ p.1 with transcript := p.1.transcript ++ [token] }, s)
  | (false, s) => ({ p.1 with status := .error }, s)

inductive WorkerAction where
  | append (tokens : List ℕ)
  | evict (rebuilt : List ℕ)
  | compact
  | beginRound
  | accept (token : ℕ)
  | endRound
  | endTurn

/-- What a turn does between its start and its end. -/
inductive WorkerStep : Worked Log → WorkerAction → Worked Log → Prop
  | append {p : Worked Log} (tokens : List ℕ) (hstatus : p.1.status = .running) :
      WorkerStep p (.append tokens)
        ({ p.1 with transcript := p.1.transcript ++ tokens }, p.2)
  | evict {p : Worked Log} (o : SyncOutcomes) (rebuilt reminder : List ℕ)
      (hstatus : p.1.status = .running) :
      WorkerStep p (.evict rebuilt) (evictToolResults T cfg o rebuilt reminder p)
  | compact {p : Worked Log} (o o' : SyncOutcomes) (exchange : Option Exchange)
      (hstatus : p.1.status = .running) :
      WorkerStep p .compact (compact T cfg o o' exchange p).2
  | beginRound {p : Worked Log} (o : SyncOutcomes) (hstatus : p.1.status = .running) :
      WorkerStep p .beginRound (beginRound T cfg o p)
  | accept {p : Worked Log} (evalOk : Bool) (draft : Option ℕ) (token : ℕ)
      (hstatus : p.1.status = .generating) :
      WorkerStep p (.accept token) (acceptGeneratedToken T evalOk draft token p)
  | endRound {p : Worked Log} (hstatus : p.1.status = .generating) :
      WorkerStep p .endRound ({ p.1 with status := .running }, p.2)
  | endTurn {p : Worked Log} {status : WorkerStatus} (hstatus : p.1.status = .running)
      (hend : status = .idle ∨ status = .error) :
      WorkerStep p .endTurn ({ p.1 with status := status }, p.2)

end

/-! ### What the worker has read -/

/-- The session holds a front part of the transcript, and all of it while the worker
generates. -/
structure Follows (w : AgentWorker) (tokens : List ℕ) (checkpointValid : Bool) : Prop where
  front : tokens <+: w.transcript
  generating : w.status = .generating → tokens = w.transcript ∧ checkpointValid = true

variable {T : Target ℕ Log} {cfg : Session.Config}

theorem follows_resetToSysprompt (o : SyncOutcomes) (sys : List ℕ) (loaded : Option (Payload ℕ Log))
    {s : State ℕ Log} (hs : s.checkpoint = []) :
    let p := resetToSysprompt T cfg o sys loaded s
    Follows p.1 p.2.checkpoint p.2.checkpointValid := by
  have hsync := sessionSync_leaves T cfg o sys s
  unfold resetToSysprompt
  cases loaded with
  | some payload => exact ⟨List.prefix_rfl, fun h => by cases h⟩
  | none =>
    have hfront : (sessionSync T cfg o sys s).2.checkpoint <+: sys := by
      rcases hsync.front with h | h
      · exact h
      · rw [h, hs]
        exact List.nil_prefix
    simp only
    split
    · rename_i heq
      rw [heq] at hfront
      exact ⟨hfront, fun h => by cases h⟩
    · rename_i heq
      rw [heq] at hfront
      exact ⟨hfront, fun h => by cases h⟩

theorem follows_invalidated {w : AgentWorker} (h : w.status = .running) (s : State ℕ Log) :
    Follows w (sessionInvalidate s).checkpoint (sessionInvalidate s).checkpointValid := by
  refine ⟨ List.nil_prefix, fun hgenerating => ?_⟩
  rw [h] at hgenerating
  cases hgenerating

theorem follows_rebuilt {w : AgentWorker} (h : w.status = .running) (o : SyncOutcomes)
    {rebuilt : List ℕ} (more : List ℕ) {s s' : State ℕ Log}
    (hsync : sessionSync T cfg o rebuilt s = (.ok, s')) :
    Follows { w with transcript := rebuilt ++ more } s'.checkpoint s'.checkpointValid := by
  have hleaves := (sessionSync_leaves T cfg o rebuilt s).ok (by rw [hsync])
  rw [hsync] at hleaves
  refine ⟨?_, fun hgenerating => ?_⟩
  · rw [hleaves.1]
    exact List.prefix_append _ _
  · rw [h] at hgenerating
    cases hgenerating

variable {p : Worked Log}

theorem follows_evictToolResults (hstatus : p.1.status = .running) (o : SyncOutcomes)
    (rebuilt reminder : List ℕ) :
    let q := evictToolResults T cfg o rebuilt reminder p
    Follows q.1 q.2.checkpoint q.2.checkpointValid := by
  unfold evictToolResults
  split
  · rename_i hsync
    exact follows_rebuilt hstatus o reminder hsync
  · exact follows_invalidated hstatus _

section

variable (h : Follows p.1 p.2.checkpoint p.2.checkpointValid)

include h

theorem follows_compact (hstatus : p.1.status = .running) (o o' : SyncOutcomes)
    (exchange : Option Exchange) :
    let q := (compact T cfg o o' exchange p).2
    Follows q.1 q.2.checkpoint q.2.checkpointValid := by
  unfold compact
  cases exchange with
  | none => exact h
  | some x =>
    simp only
    split
    · split
      · exact follows_invalidated hstatus _
      · split
        · rename_i hsync
          exact follows_rebuilt hstatus o' x.bashUpdate hsync
        · exact follows_invalidated hstatus _
    · exact follows_invalidated hstatus _

theorem follows_beginRound (o : SyncOutcomes) :
    let q := beginRound T cfg o p
    Follows q.1 q.2.checkpoint q.2.checkpointValid := by
  have hleaves := sessionSync_leaves T cfg o p.1.transcript p.2
  refine ⟨?_, fun hgenerating => hleaves.ok ?_⟩
  · rcases hleaves.front with hfront | hsame
    · exact hfront
    · exact hsame.symm ▸ h.front
  · have hresult : roundStatus (sessionSync T cfg o p.1.transcript p.2).1 = .generating :=
      hgenerating
    generalize (sessionSync T cfg o p.1.transcript p.2).1 = result at hresult
    cases result <;> first | rfl | cases hresult

theorem follows_accept (hstatus : p.1.status = .generating) (evalOk : Bool) (draft : Option ℕ)
    (token : ℕ) :
    let q := acceptGeneratedToken T evalOk draft token p
    Follows q.1 q.2.checkpoint q.2.checkpointValid := by
  obtain ⟨hsame, hvalid⟩ := h.generating hstatus
  cases evalOk with
  | true =>
    have hread : p.2.checkpoint ++ [token] = p.1.transcript ++ [token] := by rw [hsame]
    exact ⟨by
      change p.2.checkpoint ++ [token] <+: p.1.transcript ++ [token]
      rw [hread], fun _ => ⟨hread, hvalid⟩⟩
  | false => exact ⟨h.front, fun hgenerating => by cases hgenerating⟩

end

theorem WorkerStep.follows {q : Worked Log} {action : WorkerAction}
    (hstep : WorkerStep T cfg p action q) (h : Follows p.1 p.2.checkpoint p.2.checkpointValid) :
    Follows q.1 q.2.checkpoint q.2.checkpointValid := by
  cases hstep with
  | append tokens hstatus =>
    refine ⟨h.front.trans (List.prefix_append _ _), fun hgenerating => ?_⟩
    rw [show p.1.status = .generating from hgenerating] at hstatus
    cases hstatus
  | evict o rebuilt reminder hstatus => exact follows_evictToolResults hstatus o rebuilt reminder
  | compact o o' exchange hstatus => exact follows_compact h hstatus o o' exchange
  | beginRound o hstatus => exact follows_beginRound h o
  | accept evalOk draft token hstatus => exact follows_accept h hstatus evalOk draft token
  | endRound => exact ⟨h.front, fun hgenerating => by cases hgenerating⟩
  | endTurn _ hend =>
    refine ⟨h.front, fun hgenerating => ?_⟩
    rcases hend with rfl | rfl <;> cases hgenerating

end Ds4Studio.Wrapper
