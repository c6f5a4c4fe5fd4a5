import Ds4Studio.Web.AgentMessages
import Ds4Studio.Web.AgentRevisions

/-!
The turns of the agent chat on one session, from await to await. Calls are committed with
the response that made them; their results go to a working copy of the transcript, which
is committed with the next response.
-/

namespace Ds4Studio.Web

open Json

structure ChatEnv (D : Type) where
  digest : Bytes → D
  /-- `AGENT_TOOLS` -/
  agentTools : Value
  json : JsonText

def ChatEnv.session {D : Type} (env : ChatEnv D) : Env Message D where
  value := Message.value
  digest := env.digest
  agentTools := env.agentTools

/-- `AGENT_MAX_ITERATIONS` -/
def agentMaxIterations : ℕ := 25

/-- The choice of an iteration, with the request it was made for. -/
structure Attempt (D : Type) where
  request : Request Message Value
  choice : Choice Message D Value
  retriedReset : Bool

/-- Where a turn waits: between two rounds of planned crawls, in front of a crawl, at the
head of the loop, for the response of the backend, in front of a group of tool calls. -/
inductive Phase (D : Type) where
  | idle
  | planning (round : ℕ)
  | crawling (round : ℕ) (rest : List ToolCall)
  | looping (iteration : ℕ)
  | requesting (iteration : ℕ) (attempt : Attempt D)
  | running (iteration : ℕ) (attempt : Attempt D) (groups : List (List ToolCall))

/-- `clientMessages`: those the session begins with, as long as nothing is committed.
`executed`: the results of the tools that ran. `owed`: a tool has run for the user's
links, or calls have been committed, and no response without calls since. -/
structure Chat (D : Type) where
  manager : AgentSessionManager Message D
  fullMessages : List Message
  aborted : Bool
  forceReset : Bool
  phase : Phase D
  clientMessages : List Message
  executed : List Message
  owed : Bool

/-- A session that was just started. -/
def ChatEnv.start {D : Type} (env : ChatEnv D) (now counter : ℕ) : Chat D where
  manager := AgentSessionManager.new.start env.session now counter
  fullMessages := []
  aborted := false
  forceReset := false
  phase := .idle
  clientMessages := []
  executed := []
  owed := false

/-- What a turn begins with. `clientMessages` are the normalised messages of the request,
`probe` what the context preflight asks the session about, `capsule` what it adds. -/
structure TurnInput where
  systemPrompt : JsString
  clientMessages : List Message
  userMessage : Option JsString
  sagePolicy : Option JsString
  probe : Option (Request Message Value)
  capsule : Option JsString
  overBudget : Bool

/-- What the call of a tool came to. -/
structure Outcome where
  content : JsString
  executed : Bool

/-- What the Sage gate says about a final response. -/
inductive Finalization where
  | allowed
  | retry (guidance : JsString)
  | blocked

inductive ChatAction where
  | begin (input : TurnInput)
  | plan (urls : List JsString) (now : ℕ → ℕ)
  | crawl (content : JsString)
  | stopCrawling
  | brief (content : JsString)
  | enterLoop
  | choose (rest : Value) (tools : Value) (allowDelta : Bool)
  | retry (allowDelta : Bool)
  | respond (response : Response) (finalization : Finalization) (intentBlocked : Bool)
  | run (outcomes : List Outcome) (report : Option (JsString × Option JsString))
  | endRun
  | abort
  | leave (lost : List Message)

section

variable {D : Type} [DecidableEq D]

/-- The transcript that a turn starts with. -/
def Chat.opening (chat : Chat D) (input : TurnInput) : List Message :=
  let stored := chat.manager.messages
  let base := if stored = [] then .system input.systemPrompt :: input.clientMessages else stored
  let messages := base ++ (input.userMessage.map Message.user).toList
  applySagePolicyToMessages input.sagePolicy messages ++
    (input.capsule.map Message.user).toList

def decimal (n : ℕ) : JsString := js n.repr

/-- The id of a planned crawl. -/
def planId (now round i : ℕ) : JsString :=
  js "plan_crawl_" ++ decimal now ++ js "_r" ++ decimal round ++ js "_" ++ decimal i

def ChatEnv.plannedCalls (env : ChatEnv D) (urls : List JsString) (now : ℕ → ℕ) (round : ℕ) :
    List ToolCall :=
  urls.zipIdx.map fun (url, i) =>
    { id := planId (now i) round i
      name := js "crawl"
      arguments := env.json.stringify (.obj [(js "url", .str url)]) }

def ToolCall.result (call : ToolCall) (content : JsString) : Message :=
  .tool content (some call.id) none

/-- The results of a group, in the order of its calls. -/
def groupResults (group : List ToolCall) (outcomes : List Outcome) : List Message :=
  List.zipWith (fun call outcome => call.result outcome.content) group outcomes

/-- The results among them of tools that ran. -/
def executedResults (group : List ToolCall) (outcomes : List Outcome) : List Message :=
  ((group.zip outcomes).filter fun p => p.2.executed).map fun p => p.1.result p.2.content

/-- The request of an iteration. -/
def Chat.request (chat : Chat D) (rest tools : Value) : Request Message Value where
  rest := rest
  messages := some chat.fullMessages
  tools := tools

def iterationOptions (allowDelta forceReset : Bool) : ChooseOptions where
  allowDelta := allowDelta
  userTurnPolicy := if allowDelta then .delta else .reset
  forceReset := forceReset

def retryOptions (allowDelta : Bool) : ChooseOptions where
  allowDelta := allowDelta
  userTurnPolicy := .reset
  forceReset := true

/-- `canonicalSageCommitPending` -/
def canonicalSageCommitPending (pending : Pending Message D) : Pending Message D where
  mode := .reset
  parentRevision := 0
  requestMessages := pending.fullMessages
  fullMessages := []
  fullHashes := none
  toolsHash := pending.toolsHash
  sessionId := pending.sessionId

/-- The commit of a response, and the working copy behind it. -/
def ChatEnv.commit (env : ChatEnv D) (chat : Chat D) (pending : Option (Pending Message D))
    (message : Message) : Chat D :=
  let manager := env.session.commit chat.manager (.pending pending) (some message)
  { chat with manager := manager, fullMessages := manager.messages }

/-- Where a turn goes on behind a committed response. -/
def ChatEnv.behindCommit (env : ChatEnv D) (chat : Chat D) (iteration : ℕ) (attempt : Attempt D)
    (response : Response) : Chat D :=
  let calls := response.toolCalls env.json
  if response.isFinal env.json then
    { chat with phase := .idle, owed := calls != [] }
  else if sageToolBlockAllowed calls then
    { chat with phase := .running iteration attempt (groupCalls [] calls), owed := true }
  else
    { chat with
      phase := .looping iteration
      owed := true
      fullMessages :=
        chat.fullMessages ++ calls.map fun call => call.result sageMixedToolBlockForbidden }

/-- What becomes of a response: a Sage gate or a loop guard may stand in front of its
commit. -/
inductive Disposition where
  | retried (guidance : JsString)
  | ended
  | committed

def ChatEnv.disposition (env : ChatEnv D) (response : Response) (finalization : Finalization)
    (intentBlocked : Bool) : Disposition :=
  match response.isFinal env.json, finalization with
  | true, .retry guidance => .retried guidance
  | true, .blocked => .ended
  | _, _ => if intentBlocked then .ended else .committed

def ChatEnv.respond (env : ChatEnv D) (chat : Chat D) (iteration : ℕ) (attempt : Attempt D)
    (response : Response) : Disposition → Chat D
  | .retried guidance =>
      { chat with
        phase := .looping iteration
        forceReset := true
        fullMessages := chat.fullMessages ++ [.system guidance] }
  | .ended => { chat with phase := .idle }
  | .committed =>
      env.behindCommit (env.commit chat attempt.choice.pending (response.message env.json))
        iteration attempt response

/-- The published report takes the place of the call of Sage and of its response. -/
def ChatEnv.publish (env : ChatEnv D) (chat : Chat D) (attempt : Attempt D)
    (report : JsString × Option JsString) : Chat D :=
  { env.commit chat (attempt.choice.pending.map canonicalSageCommitPending)
      (.report report.1 report.2) with
    phase := .idle
    owed := false }

/-- The steps of a turn. It may be left at every await, by an exception or a `break`; what
tools did in that await is `lost`. -/
inductive ChatStep (env : ChatEnv D) : Chat D → ChatAction → Chat D → Prop
  | begin (s : Chat D) (input : TurnInput) (hphase : s.phase = .idle) :
      ChatStep env s (.begin input)
        { s with
          manager := match input.probe with
            | none => s.manager
            | some request =>
                (env.session.choosePayload s.manager request ⟨true, .delta, false⟩).2
          fullMessages := s.opening input
          aborted := false
          forceReset := false
          phase := if input.overBudget then .idle else .planning 0
          clientMessages := if s.manager.messages = [] then input.clientMessages else []
          owed := false }
  | plan (s : Chat D) (round : ℕ) (urls : List JsString) (now : ℕ → ℕ)
      (hphase : s.phase = .planning round) (hurls : urls ≠ [])
      (hround : round = 0 ∨ round = 1 ∧ s.aborted = false) :
      ChatStep env s (.plan urls now)
        { s with
          fullMessages := s.fullMessages ++
            [.assistant none none (env.plannedCalls urls now (round + 1))]
          phase := .crawling (round + 1) (env.plannedCalls urls now (round + 1)) }
  | crawl (s : Chat D) (round : ℕ) (call : ToolCall) (rest : List ToolCall) (content : JsString)
      (hphase : s.phase = .crawling round (call :: rest)) (haborted : s.aborted = false) :
      ChatStep env s (.crawl content)
        { s with
          fullMessages := s.fullMessages ++ [call.result content]
          executed := s.executed ++ [call.result content]
          owed := true
          phase := if rest = [] then .planning round else .crawling round rest }
  | stopCrawling (s : Chat D) (round : ℕ) (rest : List ToolCall)
      (hphase : s.phase = .crawling round rest) (haborted : s.aborted = true) :
      ChatStep env s .stopCrawling { s with phase := .planning round }
  | brief (s : Chat D) (round : ℕ) (content : JsString) (hphase : s.phase = .planning round)
      (hround : 0 < round) :
      ChatStep env s (.brief content)
        { s with fullMessages := s.fullMessages ++ [.system content], phase := .looping 0 }
  | enterLoop (s : Chat D) (round : ℕ) (hphase : s.phase = .planning round) :
      ChatStep env s .enterLoop { s with phase := .looping 0 }
  | choose (s : Chat D) (iteration : ℕ) (rest tools : Value) (allowDelta : Bool)
      (hphase : s.phase = .looping iteration) (hiteration : iteration < agentMaxIterations)
      (haborted : s.aborted = false) :
      ChatStep env s (.choose rest tools allowDelta)
        { s with
          manager := (env.session.choosePayload s.manager (s.request rest tools)
            (iterationOptions allowDelta s.forceReset)).2
          forceReset := false
          phase := .requesting (iteration + 1)
            ⟨s.request rest tools, (env.session.choosePayload s.manager (s.request rest tools)
              (iterationOptions allowDelta s.forceReset)).1, false⟩ }
  | retry (s : Chat D) (iteration : ℕ) (attempt : Attempt D) (allowDelta : Bool)
      (hphase : s.phase = .requesting iteration attempt) (hmode : attempt.choice.mode = .delta)
      (hfirst : attempt.retriedReset = false) :
      ChatStep env s (.retry allowDelta)
        { s with
          manager := (env.session.choosePayload s.manager attempt.request
            (retryOptions allowDelta)).2
          phase := .requesting iteration
            ⟨attempt.request, (env.session.choosePayload s.manager attempt.request
              (retryOptions allowDelta)).1, true⟩ }
  | respond (s : Chat D) (iteration : ℕ) (attempt : Attempt D) (response : Response)
      (finalization : Finalization) (intentBlocked : Bool)
      (hphase : s.phase = .requesting iteration attempt) :
      ChatStep env s (.respond response finalization intentBlocked)
        (env.respond s iteration attempt response
          (env.disposition response finalization intentBlocked))
  | run (s : Chat D) (iteration : ℕ) (attempt : Attempt D) (group : List ToolCall)
      (groups : List (List ToolCall)) (outcomes : List Outcome)
      (hphase : s.phase = .running iteration attempt (group :: groups))
      (haborted : s.aborted = false) (houtcomes : outcomes.length = group.length) :
      ChatStep env s (.run outcomes none)
        { s with
          fullMessages := s.fullMessages ++ groupResults group outcomes
          executed := s.executed ++ executedResults group outcomes
          phase := .running iteration attempt groups }
  | publish (s : Chat D) (iteration : ℕ) (attempt : Attempt D) (call : ToolCall)
      (groups : List (List ToolCall)) (outcome : Outcome) (report : JsString × Option JsString)
      (hphase : s.phase = .running iteration attempt ([call] :: groups))
      (haborted : s.aborted = false) (hsage : call.isSage = true) :
      ChatStep env s (.run [outcome] (some report)) (env.publish s attempt report)
  | endRun (s : Chat D) (iteration : ℕ) (attempt : Attempt D) (groups : List (List ToolCall))
      (hphase : s.phase = .running iteration attempt groups)
      (hend : groups = [] ∨ s.aborted = true) :
      ChatStep env s .endRun { s with phase := .looping iteration }
  | abort (s : Chat D) : ChatStep env s .abort { s with aborted := true }
  | leave (s : Chat D) (lost : List Message) (hphase : s.phase ≠ .idle) :
      ChatStep env s (.leave lost)
        { s with phase := .idle, executed := s.executed ++ lost }

end

end Ds4Studio.Web
