import Hamerkop.Lib.Runs
import Hamerkop.Lib.FreeList
import Hamerkop.Lib.Ring
import Hamerkop.StableSlotmap.Basic
import Hamerkop.StableSlotmap.Refinement
import Hamerkop.StableSlotmap.Slots
import Hamerkop.Uring.RingBuf
import Hamerkop.Uring.Sqe
import Hamerkop.Uring.SubmissionQueue
import Hamerkop.Uring.CompletionQueue
import Hamerkop.Uring.Accounting
import Hamerkop.Uring.ReadyCheck
import Hamerkop.Uring.Iterators
import Hamerkop.Executor.LinkedSlots
import Hamerkop.FixedVec
import Hamerkop.Executor.Context
import Hamerkop.Executor.Future
import Hamerkop.Executor.Submitter
import Hamerkop.Util.Dedup
import Hamerkop.Util.DedupLoop
import Hamerkop.Util.DedupRuns
import Hamerkop.Executor.Runtime
import Hamerkop.Executor.MustWait
import Hamerkop.Executor.Ledger
import Hamerkop.Executor.Machine
import Hamerkop.Executor.Table
import Hamerkop.Executor.Consistent
import Hamerkop.Executor.Process
import Hamerkop.Executor.Moves
import Hamerkop.Executor.Steps
import Hamerkop.Executor.Routing
import Hamerkop.Executor.Leaks
import Hamerkop.Executor.Pool
import Hamerkop.Executor.PoolLeaks
import Hamerkop.Executor.RingKernel
import Hamerkop.Executor.RingSlots
import Hamerkop.Executor.RingPool
import Hamerkop.Executor.Scheduling
import Hamerkop.Executor.Wakeups
import Hamerkop.Executor.BlockOn
import Hamerkop.Executor.Retries
import Hamerkop.Executor.Panics
import Hamerkop.Executor.Cleanup
import Hamerkop.Executor.Failures
import Hamerkop.Executor.Delivery
import Hamerkop.Executor.WireIds
import Hamerkop.Executor.ActiveTasks
import Hamerkop.Executor.LinkedChain
import Hamerkop.Executor.Lifecycle
import Hamerkop.Executor.Polls
import Hamerkop.FixedVec.Memory
import Hamerkop.FixedVec.Vector
import Hamerkop.FixedVec.Refinement
import Hamerkop.FixedVec.Ownership
import Hamerkop.FixedVec.Append
import Hamerkop.FixedVec.Drain
import Hamerkop.FixedVec.Retain
import Hamerkop.Lib.Sorted
import Hamerkop.Metrics.DDSketch
import Hamerkop.Metrics.Buckets
import Hamerkop.Metrics.LinearPart
import Hamerkop.Metrics.Quantile
import Hamerkop.Metrics.LazyCell
import Hamerkop.Metrics.LazyInit
import Hamerkop.Lib.Saturating
import Hamerkop.Metrics.SaturatingAdd
import Hamerkop.Metrics.Merge
import Hamerkop.Metrics.Ordered
import Hamerkop.Metrics.Rank
import Hamerkop.Metrics.Progress
import Hamerkop.Uring.SaturatingCast
import Hamerkop.Uring.Prepare
import Hamerkop.Uring.Recover
import Hamerkop.Lib.Splice
import Hamerkop.TokenReplace
import Hamerkop.FixedVec.Write
import Hamerkop.Metrics.Macros
import Hamerkop.Util.DisjointChunks
import Hamerkop.Util.Join
import Hamerkop.Lib.Commuting
import Hamerkop.Metrics.Concurrent
import Hamerkop.Servers.Buffers
import Hamerkop.Servers.Ping
import Hamerkop.Servers.PingConn
import Hamerkop.Servers.EchoConn
import Hamerkop.Servers.Acceptor
import Hamerkop.Uring.Setup
