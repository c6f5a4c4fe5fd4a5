import Ds4Studio.Lib.EventLog
import Ds4Studio.Lib.Run

/-!
A run of the Agno service: the task that turns the events of an agent into events of the run,
the registry that keeps and hands them out, and the clients that subscribe. The lock of the
registry is only held over an await where a full queue has to take the last event.
-/

namespace Ds4Studio.Agno

/-! ### Events -/

inductive RunStatus where
  | queued | running | completed | failed | cancelled

inductive EventType where
  | runStarted | modelWaiting | modelStarted | modelFinished | contentDelta | reasoningDelta
  | toolCall | toolResult | runCompleted | runFailed | runCancelled

/-- The status that an event ends a run with. -/
def EventType.endsWith : EventType → Option RunStatus
  | .runCompleted => some .completed
  | .runFailed => some .failed
  | .runCancelled => some .cancelled
  | _ => none

/-- A value of JSON; `other` is a list, a dictionary or another number. -/
inductive Datum where
  | none
  | str (s : String)
  | num (n : ℕ)
  | bool (b : Bool)
  | other
deriving DecidableEq

/-- The content of an event; a value that is neither text nor a dictionary is not accepted. -/
inductive Content where
  | text (s : String)
  | dict (entries : List (String × Datum))
  | value

def Content.truthy : Content → Bool
  | .text s => s ≠ ""
  | .dict entries => entries ≠ []
  | .value => true

/-- `a or b` -/
def Content.orElse (a b : Content) : Content := if a.truthy then a else b

structure Event where
  type : EventType
  seq : ℕ
  content : Content

def Event.terminal (e : Event) : Bool := e.type.endsWith.isSome

/-- What an agent yields. -/
inductive AgentEvent where
  | runContent (content reasoning : Content)
  | modelRequestStarted
  | modelRequestCompleted (totalTokens : ℕ)
  | toolCallStarted (toolCallId toolName : Datum)
  | toolCallEnded (errorEvent : Bool) (toolCallId toolName : Datum) (toolCallError : Bool)
      (error result : Datum)
  | runCompleted (content : Content)
  | runError (content : Content)
  | other

/-- The awaits of the task. -/
inductive Instr where
  | mark (status : RunStatus)
  | publish (type : EventType) (content : Content)

def publishIf (type : EventType) (content : Content) : List Instr :=
  if content.truthy then [.publish type content] else []

def AgentEvent.instrs : AgentEvent → List Instr
  | .runContent content reasoning =>
      publishIf .contentDelta content ++ publishIf .reasoningDelta reasoning
  | .modelRequestStarted => [.publish .modelStarted (.dict [])]
  | .modelRequestCompleted totalTokens =>
      [.publish .modelFinished (.dict [("totalTokens", .num totalTokens)])]
  | .toolCallStarted toolCallId toolName =>
      [.publish .toolCall (.dict [("toolCallId", toolCallId), ("toolName", toolName)])]
  | .toolCallEnded errorEvent toolCallId toolName toolCallError error result =>
      [.publish .toolResult (.dict
        [("toolCallId", toolCallId), ("toolName", toolName),
          ("isError", .bool (errorEvent || toolCallError)),
          ("result", if error ≠ .none then error else result)])]
  | .runCompleted content =>
      [.mark .completed, .publish .runCompleted (content.orElse (.text ""))]
  | .runError content =>
      [.mark .failed, .publish .runFailed (content.orElse (.text "unknown error"))]
  | .other => []

def AgentEvent.isTerminal : AgentEvent → Bool
  | .runCompleted _ | .runError _ => true
  | _ => false

/-! ### The run -/

/-- Where the task goes when it has nothing left to do. -/
inductive Next where
  | loop | finish
deriving DecidableEq

/-- Where the task waits. `queued` is before it is made, `created` before its first step, and
`blocked` inside of `put` at the subscriber with a number. -/
inductive Stage where
  | queued
  | created
  | working (todo : List Instr) (next : Next)
  | blocked (event : Event) (at_ : ℕ) (todo : List Instr) (next : Next)
  | waiting
  | closing
  | done

/-- `seq` is the last number given out, `handling` whether an exception has been caught. -/
structure Task where
  stage : Stage
  seq : ℕ
  terminalSeen : Bool
  streamOpen : Bool
  handling : Bool

inductive Client where
  | reading | ended | gone
deriving DecidableEq

/-- A subscriber: its queue, and what its client got. -/
structure Subscriber where
  subscribed : Bool
  client : Client
  lastSeq : ℤ
  queue : List Event
  sent : List Event

structure Service where
  status : RunStatus
  cancelRequested : Bool
  events : List Event
  task : Task
  subscribers : List Subscriber

def maxsize : ℕ := 256

def Service.start : Service := ⟨.queued, false, [], ⟨.queued, 0, false, false, false⟩, []⟩

/-! ### The task -/

/-- The awaits in front of the loop, where the agent is known or not. -/
def prologue (targetId : String) (known : Bool) : Stage :=
  if known then
    .working [.publish .runStarted (.dict []), .publish .modelWaiting (.dict []),
      .publish .modelStarted (.dict [])] .loop
  else
    .working [.publish .runStarted (.dict []), .mark .failed,
      .publish .runFailed (.text ("agent " ++ targetId ++ " not found"))] .finish

/-- The task goes on to its next await. -/
def Task.goOn (todo : List Instr) (next : Next) (task : Task) : Task :=
  match todo, next with
  | [], .loop => { task with stage := .waiting, streamOpen := true }
  | [], .finish => { task with stage := .done }
  | _, _ => { task with stage := .working todo next }

/-- `except Exception`, unless the exception leaves a handler. -/
def Task.raised (message : String) (task : Task) : Task :=
  if task.handling then { task with stage := .done }
  else
    { task with
      stage := .working [.mark .failed, .publish .runFailed (.text message)] .finish
      handling := true }

/-- `_next_seq` -/
def Task.take (task : Task) : Task := { task with seq := task.seq + 1 }

/-- An event of the agent. -/
def Task.agent (event : AgentEvent) (task : Task) : Task :=
  ({ task with terminalSeen := task.terminalSeen || event.isTerminal } : Task).goOn
    event.instrs .loop

/-- The agent yields no more. -/
def Task.agentEnds (task : Task) : Task :=
  task.goOn (if task.terminalSeen then []
    else [.mark .completed, .publish .runCompleted (.dict [])]) .finish

/-- Behind `aclose`. -/
def cancelledTodo : List Instr := [.mark .cancelled, .publish .runCancelled (.dict [])]

/-- `task.cancel()`. The number of an event whose `publish` waits is lost. -/
def Task.cancel (task : Task) : Task :=
  let seq := match task.stage with
    | .working (.publish _ _ :: _) _ => task.seq + 1
    | _ => task.seq
  match task.stage with
  | .queued | .done | .blocked _ _ _ _ => task
  | .created => { task with stage := .done }
  | _ =>
      if task.handling then { task with stage := .done, seq := seq }
      else if task.streamOpen then { task with stage := .closing, seq := seq, handling := true }
      else { task with stage := .working cancelledTodo .finish, seq := seq, handling := true }

/-! ### The registry -/

def Subscriber.put (e : Event) (sub : Subscriber) : Subscriber :=
  { sub with queue := sub.queue ++ [e] }

/-- The queues take an event, up to a full one that has to. The source goes through a set; another
order only changes which queues wait for the full one. -/
def deliver (e : Event) : List Subscriber → List Subscriber × Option ℕ
  | [] => ([], none)
  | sub :: rest =>
      if sub.subscribed && maxsize ≤ sub.queue.length && e.terminal then (sub :: rest, some 0)
      else
        let sub := if sub.subscribed && sub.queue.length < maxsize then sub.put e else sub
        let (rest, blocked) := deliver e rest
        (sub :: rest, blocked.map (· + 1))

/-- Behind the delivery of an event. -/
def Service.delivered (e : Event) (front : List Subscriber) (todo : List Instr) (next : Next)
    (r : List Subscriber × Option ℕ) (s : Service) : Service :=
  match r.2 with
  | none => { s with subscribers := front ++ r.1, task := s.task.goOn todo next }
  | some k =>
      { s with
        subscribers := front ++ r.1
        task := { s.task with stage := .blocked e (front.length + k) todo next } }

/-- `publish`; the event is built before. -/
def Service.publish (type : EventType) (content : Content) (todo : List Instr) (next : Next)
    (s : Service) : Service :=
  let e : Event := ⟨type, s.task.seq + 1, content⟩
  ({ s with events := s.events ++ [e], task := s.task.take } : Service).delivered e [] todo next
    (deliver e s.subscribers)

/-- `subscribe`: what does not fit into the queue is not replayed. -/
def Service.subscribe (lastSeq : ℤ) (s : Service) : Service :=
  { s with subscribers := s.subscribers ++
    [⟨true, .reading, lastSeq, s.events.take maxsize, []⟩] }

/-- The stream of a client takes an event off its queue. -/
def Subscriber.read (e : Event) (rest : List Event) (sub : Subscriber) : Subscriber :=
  if sub.lastSeq < e.seq then
    { sub with
      queue := rest
      sent := sub.sent ++ [e]
      client := if e.terminal then .ended else .reading }
  else { sub with queue := rest }

/-- Whether the lock of the registry is held over an await. -/
def Stage.locked : Stage → Bool
  | .blocked _ _ _ _ => true
  | _ => false

inductive RunAction where
  | startTask
  | firstStep (targetId : String) (known : Bool)
  | mark
  | publish
  | resume
  | agent (event : AgentEvent)
  | agentEnds
  | agentRaises (message : String)
  | cancel
  | swallow
  | closed (ok : Bool)
  | subscribe (lastSeq : ℤ)
  | read (i : ℕ)
  | leave (i : ℕ)
  | unsubscribe (i : ℕ)

inductive RunStep : Service → RunAction → Service → Prop
  | startTask {s : Service} (h : s.task.stage = .queued) :
      RunStep s .startTask
        { s with status := .running, task := { s.task with stage := .created } }
  | firstStep {s : Service} (targetId : String) (known : Bool) (h : s.task.stage = .created) :
      RunStep s (.firstStep targetId known)
        { s with task := { s.task with stage := prologue targetId known } }
  | mark {s : Service} {status : RunStatus} {todo : List Instr} {next : Next}
      (h : s.task.stage = .working (.mark status :: todo) next) :
      RunStep s .mark { s with status := status, task := s.task.goOn todo next }
  | publish {s : Service} {type : EventType} {content : Content} {todo : List Instr} {next : Next}
      (h : s.task.stage = .working (.publish type content :: todo) next)
      (hcontent : content ≠ .value) : RunStep s .publish (s.publish type content todo next)
  | refuse {s : Service} {type : EventType} {todo : List Instr} {next : Next} (message : String)
      (h : s.task.stage = .working (.publish type .value :: todo) next) :
      -- The number is taken before the event is checked.
      RunStep s .publish
        { s with task := s.task.take.raised message }
  | resume {s : Service} {e : Event} {todo : List Instr} {next : Next}
      {front rest : List Subscriber} {sub : Subscriber} (h : s.task.stage = .blocked e front.length todo next)
      (hsubs : s.subscribers = front ++ sub :: rest) (hroom : sub.queue.length < maxsize) :
      RunStep s .resume (s.delivered e (front ++ [sub.put e]) todo next (deliver e rest))
  | agent {s : Service} (event : AgentEvent) (h : s.task.stage = .waiting) :
      RunStep s (.agent event)
        { s with task := s.task.agent event }
  | agentEnds {s : Service} (h : s.task.stage = .waiting) :
      RunStep s .agentEnds { s with task := s.task.agentEnds }
  | agentRaises {s : Service} (message : String) (h : s.task.stage = .waiting) :
      RunStep s (.agentRaises message) { s with task := s.task.raised message }
  | cancel {s : Service} (hlock : s.task.stage.locked = false) :
      RunStep s .cancel { s with cancelRequested := true, task := s.task.cancel }
  | swallow {s : Service} (hlock : s.task.stage.locked = false) (h : s.task.stage = .waiting) :
      -- The agent catches the cancellation and goes on.
      RunStep s .swallow { s with cancelRequested := true }
  | closed {s : Service} (ok : Bool) (h : s.task.stage = .closing) :
      RunStep s (.closed ok)
        { s with task := { s.task with
          stage := if ok then .working cancelledTodo .finish else .done } }
  | subscribe {s : Service} (lastSeq : ℤ) (hlock : s.task.stage.locked = false) :
      RunStep s (.subscribe lastSeq) (s.subscribe lastSeq)
  | read {s : Service} {front rest : List Subscriber} {sub : Subscriber} {e : Event}
      {queue : List Event} (hsubs : s.subscribers = front ++ sub :: rest)
      (hclient : sub.client = .reading) (hqueue : sub.queue = e :: queue) :
      RunStep s (.read front.length)
        { s with subscribers := front ++ sub.read e queue :: rest }
  | leave {s : Service} {front rest : List Subscriber} {sub : Subscriber}
      (hsubs : s.subscribers = front ++ sub :: rest) (hclient : sub.client = .reading) :
      RunStep s (.leave front.length)
        { s with subscribers := front ++ { sub with client := .gone } :: rest }
  | unsubscribe {s : Service} {front rest : List Subscriber} {sub : Subscriber}
      (hsubs : s.subscribers = front ++ sub :: rest) (hclient : sub.client ≠ .reading)
      (hlock : s.task.stage.locked = false) :
      RunStep s (.unsubscribe front.length)
        { s with subscribers := front ++ { sub with subscribed := false } :: rest }

end Ds4Studio.Agno
