import Ds4Studio.Agent.BashJob
import Ds4Studio.Agent.ContextBlob
import Ds4Studio.Agent.LoopGuard
import Ds4Studio.Agent.Repetition
import Ds4Studio.Agent.SageMirror
import Ds4Studio.Agent.SagePublish
import Ds4Studio.Agent.ShownParameter
import Ds4Studio.Agent.SkillCommand
import Ds4Studio.Agno.Cancelling
import Ds4Studio.Agno.Catalog
import Ds4Studio.Agno.RunEnds
import Ds4Studio.Agno.Semaphore
import Ds4Studio.Chat.ResponsesKey
import Ds4Studio.Chat.ToolMemory
import Ds4Studio.Crawl.Jobs
import Ds4Studio.Crawl.Source
import Ds4Studio.Dist.Topology
import Ds4Studio.Dsml.Arguments
import Ds4Studio.Evolution.CallBudget
import Ds4Studio.Evolution.Evidence
import Ds4Studio.Evolution.Improvement
import Ds4Studio.Evolution.Integrity
import Ds4Studio.Evolution.LedgerRuns
import Ds4Studio.Evolution.PatchInspection
import Ds4Studio.Evolution.Stream
import Ds4Studio.Files.Paging
import Ds4Studio.Json.Literals
import Ds4Studio.Kvstore.Eviction
import Ds4Studio.Kvstore.Headers
import Ds4Studio.Kvstore.Schedule
import Ds4Studio.Kvstore.Superseded
import Ds4Studio.Payload.Load
import Ds4Studio.Research.Documents
import Ds4Studio.Research.RateLimiter
import Ds4Studio.Research.SsrfGuard
import Ds4Studio.Session.Prefill
import Ds4Studio.Session.Speculative
import Ds4Studio.Stream.Brackets
import Ds4Studio.Stream.Lifecycle
import Ds4Studio.Stream.Stops
import Ds4Studio.Web.AgentPairs
import Ds4Studio.Web.BlobStore
import Ds4Studio.Web.ResumedMetadata
import Ds4Studio.Web.Sandbox
import Ds4Studio.Web.SeenReads
import Ds4Studio.Web.ToolSchema
import Ds4Studio.Wrapper.Chats
import Ds4Studio.Wrapper.Passing
