import Blunder.Foundation.Transition
import Blunder.Foundation.LockTable
import Blunder.Foundation.Decimal
import Blunder.Foundation.StableSort
import Blunder.Foundation.Packing
import Blunder.Foundation.FirstFit
import Blunder.Foundation.Kahn
import Blunder.Foundation.PriorityQueue
import Blunder.Foundation.ListScheduling
import Blunder.Foundation.HashMap
import Blunder.Foundation.Holdings
import Blunder.Foundation.Bincode
import Blunder.Foundation.PrefixCode
import Blunder.Foundation.Footprint
import Blunder.Foundation.CriticalSection
import Blunder.Core.Basic
import Blunder.Core.LockGuard
import Blunder.Core.LockThreads
import Blunder.Core.Messages
import Blunder.Core.AsyncLockGuard
import Blunder.Core.AsyncExclusion
import Blunder.Core.Protocol
import Blunder.Core.Client
import Blunder.Core.PendingRequests
import Blunder.Core.ReceiveLoop
import Blunder.Core.Encoding
import Blunder.Core.Codec
import Blunder.Scheduler.Basic
import Blunder.Scheduler.PrioGraph
import Blunder.Scheduler.InDegrees
import Blunder.Scheduler.PriorityOrder
import Blunder.Scheduler.Placement
import Blunder.Scheduler.Greedy
import Blunder.Scheduler.Adaptive
import Blunder.Scheduler.ConcurrentCalls
import Blunder.Scheduler.GreedySession
import Blunder.Scheduler.ConcurrentPlacement
import Blunder.SchedulerExternal.RoundRobin
import Blunder.SchedulerExternal.Session
import Blunder.SchedulerExternal.Contract
import Blunder.SchedulerExternal.ReadLimit
import Blunder.SchedulerExternal.ByteSession
import Blunder.Engine.BlockEngine
import Blunder.Engine.Submissions
import Blunder.Engine.AsyncWorker
import Blunder.Engine.Serializability
import Blunder.Engine.Worker
import Blunder.Engine.Dispatch
import Blunder.Engine.Backlog
import Blunder.Engine.Pipeline
import Blunder.Engine.PoolClients
import Blunder.Engine.PendingWork
import Blunder.Engine.OneClient
import Blunder.Engine.Shutdown
import Blunder.Engine.Delivery
import Blunder.Engine.Prioritizer
import Blunder.Engine.PriorityFormulas
import Blunder.Engine.Ranking
import Blunder.Engine.TpuSession
import Blunder.Engine.SchedulerEngine
import Blunder.Engine.IntegratedPipeline
import Blunder.Engine.OutputContract
import Blunder.Engine.Routes
import Blunder.Engine.Calls
import Blunder.Engine.CallLedger
import Blunder.Engine.BatchTruth
import Blunder.Engine.RoundTrip
import Blunder.Engine.BatchSession
import Blunder.Engine.BatchProgress
