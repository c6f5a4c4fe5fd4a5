import Mathlib.Data.List.DropRight
import Mathlib.Data.List.Sort

/-!
The crawl service: the jobs of the repository, the coroutine that runs a job, and the
stream of its events. A coroutine can be interrupted at its awaits only, so what it does
from one await to the next is one function.
-/

namespace Ds4Studio.Crawl

inductive JobState where
  | queued | starting | running | cancelling | cancelled | succeeded | partiallySucceeded | failed
deriving DecidableEq

/-- `_TRANSITIONS` -/
def transitions : JobState → List JobState
  | .queued => [.starting, .cancelled]
  | .starting => [.running, .cancelling, .failed]
  | .running => [.cancelling, .cancelled, .succeeded, .partiallySucceeded, .failed]
  | .cancelling => [.cancelled, .failed]
  | .cancelled | .succeeded | .partiallySucceeded | .failed => []

/-- The states in which the stream of events ends. -/
def JobState.terminal : JobState → Bool
  | .succeeded | .partiallySucceeded | .failed | .cancelled => true
  | .queued | .starting | .running | .cancelling => false

/-! ### What a page gives -/

/-- A string of Python: its code points, which may be surrogates. -/
abbrev Text := List ℕ

def isSurrogate (c : ℕ) : Bool := 0xD800 ≤ c && c ≤ 0xDFFF

/-- `str.isspace` -/
def isSpace (c : ℕ) : Bool :=
  (9 ≤ c && c ≤ 13) || (28 ≤ c && c ≤ 32) || c == 0x85 || c == 0xA0 || c == 0x1680 ||
    (0x2000 ≤ c && c ≤ 0x200A) || c == 0x2028 || c == 0x2029 || c == 0x202F || c == 0x205F ||
    c == 0x3000

def strip (text : Text) : Text := (text.dropWhile isSpace).rdropWhile isSpace

def firstText : List Text → Text
  | [] => []
  | text :: rest => if strip text = [] then firstText rest else strip text

/-- What is read of a result of the crawler: `markdown` is one text, or offers several in
the order they are looked at. -/
structure CrawlResult where
  success : Option Bool
  statusCode : Option ℤ
  markdown : List Text

structure Normalized where
  ok : Bool
  markdown : Text

def normalizeResult (result : CrawlResult) : Normalized where
  ok := result.success.getD true && result.statusCode.all (· < 400)
  markdown := firstText result.markdown

/-- How a crawl ends. `CancelledError` is not an `Exception`. -/
inductive CrawlOutcome where
  | result (result : CrawlResult)
  | raised (error : String)
  | cancelled

inductive PageState where
  | succeeded | failed
deriving DecidableEq

structure Page where
  url : String
  state : PageState
  markdown : Text

/-- The page that is stored for a crawl that was not cancelled, and its error. -/
def CrawlOutcome.page (url : String) : CrawlOutcome → Option (Page × Option String)
  | .result crawled =>
      let normalized := normalizeResult crawled
      some (⟨url, if normalized.ok then .succeeded else .failed, normalized.markdown⟩, none)
  | .raised error => some (⟨url, .failed, []⟩, some error)
  | .cancelled => none

/-- `_normalize_url`: the page of a paper in place of its PDF. -/
def normalizeUrl (url : List Char) : List Char :=
  let pdf := ["https://arxiv.org/pdf/".toList, "http://arxiv.org/pdf/".toList].find?
    fun pre => pre.isPrefixOf url && pre.length < url.length
  match pdf with
  | none => url
  | some pre =>
      let paper := url.drop pre.length
      "https://arxiv.org/abs/".toList ++
        if ".pdf".toList.isSuffixOf paper && 4 < paper.length then paper.rdrop 4 else paper

structure ManifestEntry where
  url : String
  state : PageState
  content : Option Text

structure Manifest where
  pages : List ManifestEntry
  totalPages : ℕ
  allSucceeded : Bool

def truncateContent (text : Text) : Text :=
  if 22000 < text.length then
    text.take 22000 ++ "\n...[truncated]".toList.map Char.toNat
  else text

def Page.entry (page : Page) : ManifestEntry where
  url := page.url
  state := page.state
  content :=
    if strip (truncateContent page.markdown) = [] then none
    else some (truncateContent page.markdown)

/-- The manifest is written without escapes, and a surrogate has no UTF-8. -/
def Manifest.encodable (manifest : Manifest) : Bool :=
  manifest.pages.all fun entry => (entry.content.getD []).all fun c => !isSurrogate c

/-! ### The repository -/

inductive Event where
  | pageStart (idx : ℕ) (url : String)
  | pageComplete (idx : ℕ) (url : String) (state : PageState) (error : Option String)
  | cancelled
  | failed

inductive JobResult where
  | manifest (manifest : Manifest)
  | error

/-- The row of a job with its pages and events. -/
structure Job where
  state : JobState
  urls : List String
  pages : List Page
  events : List (ℕ × Event)
  result : Option JobResult

def createJob (urls : List String) : Job := ⟨.queued, urls, [], [], none⟩

/-- `transition_job` raises for a move that is not declared. -/
structure Move where
  expected : JobState
  target : JobState
  declared : target ∈ transitions expected

def Job.transition (job : Job) (move : Move) : Job × Bool :=
  if job.state = move.expected then ({ job with state := move.target }, true) else (job, false)

def Job.commitResult (job : Job) (state : JobState) (result : JobResult) : Job :=
  { job with state := state, result := some result }

def nextEventId (events : List (ℕ × Event)) : ℕ := (events.map Prod.fst).foldr max 0 + 1

def Job.appendEvent (job : Job) (event : Event) : Job :=
  { job with events := job.events ++ [(nextEventId job.events, event)] }

def Job.storePageResult (job : Job) (idx : ℕ) (page : Page) : Job :=
  { job with pages := job.pages.take idx ++ page :: job.pages.drop (idx + 1) }

/-- The rows behind an id, in their order. -/
def Job.eventsAfter (job : Job) (lastId : ℕ) : List (ℕ × Event) :=
  (job.events.filter fun row => lastId < row.1).insertionSort fun a b => a.1 ≤ b.1

/-! ### The coroutine of a job -/

/-- Where the coroutine is suspended. -/
inductive Task where
  | created
  | crawling (idx : ℕ) (url : String) (allSucceeded : Bool)
  | done

/-- A job, its coroutine, and whether `_cancel_requests` holds its id. -/
structure Turn where
  job : Job
  task : Task
  requested : Bool

def queuedStarting : Move := ⟨.queued, .starting, by decide⟩
def startingRunning : Move := ⟨.starting, .running, by decide⟩
def runningCancelled : Move := ⟨.running, .cancelled, by decide⟩

def Job.manifest (job : Job) (allSucceeded : Bool) : Manifest :=
  ⟨job.pages.map Page.entry, job.urls.length, allSucceeded⟩

/-- What follows the last page. -/
def commitPages (allSucceeded : Bool) (job : Job) : Job :=
  if (job.manifest allSucceeded).encodable then
    job.commitResult (if allSucceeded then .succeeded else .partiallySucceeded)
      (.manifest (job.manifest allSucceeded))
  else (job.appendEvent .failed).commitResult .failed .error

/-- From the head of the loop over the pages. -/
def pageLoop (requested : Bool) (idx : ℕ) (allSucceeded : Bool) (job : Job) : Turn :=
  if requested then ⟨(job.transition runningCancelled).1, .done, false⟩
  else
    match job.urls[idx]? with
    | some url => ⟨job.appendEvent (.pageStart idx url), .crawling idx url allSucceeded, false⟩
    | none => ⟨commitPages allSucceeded job, .done, false⟩

/-- `run_job` up to its first await. -/
def runJob (requested : Bool) (job : Job) : Turn :=
  match job.transition queuedStarting with
  | (job, false) => ⟨job, .done, requested⟩
  | (job, true) => pageLoop requested 0 true (job.transition startingRunning).1

/-- `run_job` from the end of a crawl. -/
def resumeJob (requested : Bool) (idx : ℕ) (url : String) (allSucceeded : Bool)
    (outcome : CrawlOutcome) (job : Job) : Turn :=
  match outcome.page url with
  | none => ⟨((job.appendEvent .cancelled).transition runningCancelled).1, .done, requested⟩
  | some (page, error) =>
      pageLoop requested (idx + 1) (allSucceeded && page.state = .succeeded)
        ((job.storePageResult idx page).appendEvent (.pageComplete idx url page.state error))

/-! ### The stream of events -/

/-- `handing`: the row at the front is sent, and the others of the batch come next. -/
inductive StreamPhase where
  | polling
  | handing (row : ℕ × Event) (rest : List (ℕ × Event))
  | done

structure Client where
  jobId : String
  lastId : ℕ
  received : List (ℕ × Event)
  phase : StreamPhase

/-- What follows the rows of a batch. -/
def Client.checkState (client : Client) (job : Option Job) : Client :=
  { client with phase := if job.any (·.state.terminal) then .done else .polling }

def Client.poll (client : Client) (job : Option Job) : Client :=
  match (job.map (·.eventsAfter client.lastId)).getD [] with
  | [] => client.checkState job
  | row :: rest =>
      { client with received := client.received ++ [row], phase := .handing row rest }

def Client.resume (client : Client) (job : Option Job) : Client :=
  match client.phase with
  | .handing row (next :: rest) =>
      { client with
        lastId := row.1
        received := client.received ++ [next]
        phase := .handing next rest }
  | .handing row [] => Client.checkState { client with lastId := row.1 } job
  | _ => client

/-! ### The service -/

/-- A job that was submitted. `interrupted`: `cancel` was called on its task; `tracked`: its
task is in `_active_tasks`. -/
structure JobRun where
  job : Job
  task : Task
  interrupted : Bool
  tracked : Bool

/-- `asked` are the jobs that were ever to be cancelled, by a request or by closing. -/
structure Service where
  runs : String → Option JobRun
  cancelRequests : String → Bool
  gathering : List (String → Bool)
  clients : ℕ → Option Client
  asked : String → Bool

def Service.start : Service := ⟨fun _ => none, fun _ => false, [], fun _ => none, fun _ => false⟩

def Service.job (s : Service) (id : String) : Option Job := (s.runs id).map JobRun.job

/-- `cancel` does nothing to a task that is done. -/
def JobRun.cancel (run : JobRun) : JobRun :=
  match run.task with
  | .done => run
  | _ => { run with interrupted := run.interrupted || run.tracked }

/-- What a task leaves at its next await. A task that is done is no longer tracked. -/
def Service.settle (s : Service) (id : String) (run : JobRun) (turn : Turn) : Service :=
  { s with
    runs := Function.update s.runs id (some
      { run with
        job := turn.job
        task := turn.task
        tracked := match turn.task with
          | .done => false
          | _ => run.tracked })
    cancelRequests := Function.update s.cancelRequests id turn.requested }

def Service.cancelJob (s : Service) (id : String) : Service :=
  { s with
    runs := Function.update s.runs id ((s.runs id).map JobRun.cancel)
    cancelRequests := Function.update s.cancelRequests id true
    asked := Function.update s.asked id true }

def Service.tracked (s : Service) (id : String) : Bool := (s.runs id).any JobRun.tracked

def Service.close (s : Service) : Service :=
  { s with
    runs := fun id => (s.runs id).map JobRun.cancel
    gathering := s.tracked :: s.gathering
    asked := fun id => s.asked id || s.tracked id }

/-- `_active_tasks.clear()` -/
def Service.clear (s : Service) (gathering : List (String → Bool)) : Service :=
  { s with
    runs := fun id => (s.runs id).map fun run => { run with tracked := false }
    gathering := gathering }

inductive Action where
  | post (id : String) (urls : List String)
  | start (id : String)
  | crawled (id : String) (outcome : CrawlOutcome)
  | cancel (id : String)
  | close
  | clear
  | openStream (key : ℕ) (id : String)
  | poll (key : ℕ)
  | resume (key : ℕ)

/-- An id is new, and a request names a page at least. -/
inductive Step : Service → Action → Service → Prop
  | post {s : Service} {id : String} {urls : List String} (hid : s.runs id = none)
      (hurls : urls ≠ []) :
      Step s (.post id urls)
        { s with
          runs := Function.update s.runs id (some
            ⟨createJob (urls.map fun url => String.ofList (normalizeUrl url.toList)),
              .created, false, true⟩) }
  | start {s : Service} {id : String} {run : JobRun} (hrun : s.runs id = some run)
      (htask : run.task = .created) (hstarts : run.interrupted = false) :
      Step s (.start id) (s.settle id run (runJob (s.cancelRequests id) run.job))
  | startInterrupted {s : Service} {id : String} {run : JobRun} (hrun : s.runs id = some run)
      (htask : run.task = .created) (hstarts : run.interrupted = true) :
      Step s (.start id) (s.settle id run ⟨run.job, .done, s.cancelRequests id⟩)
  | crawled {s : Service} {id : String} {run : JobRun} {idx : ℕ} {url : String}
      {allSucceeded : Bool} {outcome : CrawlOutcome} (hrun : s.runs id = some run)
      (htask : run.task = .crawling idx url allSucceeded)
      (hcancelled : outcome = .cancelled → run.interrupted = true) :
      Step s (.crawled id outcome)
        (s.settle id run (resumeJob (s.cancelRequests id) idx url allSucceeded outcome run.job))
  | cancel {s : Service} (id : String) : Step s (.cancel id) (s.cancelJob id)
  | close {s : Service} : Step s .close s.close
  | clear {s : Service} {l r : List (String → Bool)} {tasks : String → Bool}
      (hgathering : s.gathering = l ++ tasks :: r)
      (hdone : ∀ id run, tasks id = true → s.runs id = some run → run.task = .done) :
      Step s .clear (s.clear (l ++ r))
  | openStream {s : Service} {key : ℕ} (id : String) (hkey : s.clients key = none) :
      Step s (.openStream key id)
        { s with clients := Function.update s.clients key (some ⟨id, 0, [], .polling⟩) }
  | poll {s : Service} {key : ℕ} {client : Client} (hclient : s.clients key = some client)
      (hphase : client.phase = .polling) :
      Step s (.poll key)
        { s with
          clients := Function.update s.clients key (some (client.poll (s.job client.jobId))) }
  | resume {s : Service} {key : ℕ} {client : Client} {row : ℕ × Event} {rest : List (ℕ × Event)}
      (hclient : s.clients key = some client) (hphase : client.phase = .handing row rest) :
      Step s (.resume key)
        { s with
          clients := Function.update s.clients key (some (client.resume (s.job client.jobId))) }

end Ds4Studio.Crawl
