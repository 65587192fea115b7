import Pyoneer.Lib.Run
import Pyoneer.Lib.Ring
import Pyoneer.Lib.Fifo
import Pyoneer.Lib.Heap
import Pyoneer.Lib.CondVar
import Pyoneer.Lib.Component
import Pyoneer.Lib.Walk
import Pyoneer.Lib.Utf8
import Pyoneer.Shared.CString
import Pyoneer.Shared.Json
import Pyoneer.Shared.JsonParse
import Pyoneer.Shared.JsonBuild
import Pyoneer.Shared.JsonParseTheorems
import Pyoneer.Shared.JsonGrammar
import Pyoneer.Shared.JsonCompare
import Pyoneer.Shared.JsonEquality
import Pyoneer.Shared.JsonRepeated
import Pyoneer.Shared.JsonMemory
import Pyoneer.Shared.JsonSerialize
import Pyoneer.Shared.JsonSerializeInt
import Pyoneer.Shared.JsonRoundTrip
import Pyoneer.Shared.JsonPasses
import Pyoneer.Shared.JsonFirstPass
import Pyoneer.Shared.JsonSecondPass
import Pyoneer.Shared.JsonFree
import Pyoneer.Shared.JsonLimits
import Pyoneer.Shared.JsonUtf8
import Pyoneer.Blueprint.Task
import Pyoneer.Blueprint.TaskRunner
import Pyoneer.Blueprint.TaskRunnerTheorems
import Pyoneer.Blueprint.SpawnFailure
import Pyoneer.Blueprint.RunnerInfo
import Pyoneer.Blueprint.Job
import Pyoneer.Blueprint.Allocation
import Pyoneer.Blueprint.JobFormat
import Pyoneer.Blueprint.JobEncode
import Pyoneer.Blueprint.JobThread
import Pyoneer.Blueprint.JobThreadTheorems
import Pyoneer.Blueprint.JobModes
import Pyoneer.Blueprint.JobModesTheorems
import Pyoneer.Blueprint.TaskHandles
import Pyoneer.Blueprint.JobRunner
import Pyoneer.Blueprint.Release
import Pyoneer.Blueprint.RunCounters
import Pyoneer.Blueprint.RunOnce
import Pyoneer.Blueprint.Restarts
import Pyoneer.Blueprint.Termination
import Pyoneer.Runtime.Engine
import Pyoneer.Runtime.EngineTheorems
import Pyoneer.Runtime.EngineHandles
import Pyoneer.Runtime.Worker
import Pyoneer.Runtime.StatusReport
import Pyoneer.Runtime.WorkerTheorems
import Pyoneer.Runtime.Liveness
import Pyoneer.Runtime.Exclusion
import Pyoneer.Runtime.Refusal
import Pyoneer.Runtime.Stages
import Pyoneer.Runtime.Reporting
import Pyoneer.Runtime.Ownership
import Pyoneer.Runtime.Replace
import Pyoneer.Runtime.SameJob
import Pyoneer.Runtime.Snapshots
import Pyoneer.Runtime.Teardown
import Pyoneer.Runtime.Progress
import Pyoneer.Runtime.Correspondence
import Pyoneer.Api.Client
import Pyoneer.Api.ClientTheorems
import Pyoneer.Api.Replies
import Pyoneer.Api.Effects
import Pyoneer.Api.Exchange
import Pyoneer.Api.Encoding
import Pyoneer.Api.Transport
import Pyoneer.Api.Handlers
import Pyoneer.Api.HandlersTheorems
import Pyoneer.Api.ThreadPool
import Pyoneer.Api.ThreadPoolTheorems
import Pyoneer.Api.PoolFifo
import Pyoneer.Api.PoolCreate
import Pyoneer.Api.ServerCreate
import Pyoneer.Api.Server
import Pyoneer.Api.ServerTheorems
import Pyoneer.Api.Signals
import Pyoneer.Cli.Worker
import Pyoneer.Cli.WorkerTheorems
import Pyoneer.Cli.Pyoctl
import Pyoneer.Cli.TestWorker
import Pyoneer.Main.Flags
import Pyoneer.Main.Agent
