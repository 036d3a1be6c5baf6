import AsyncLib.Lib.System
import AsyncLib.Lib.Simulation
import AsyncLib.Lib.Agenda
import AsyncLib.Lib.Holders
import AsyncLib.Lib.Linked
import AsyncLib.Lib.Fifo
import AsyncLib.Lib.Dataflow
import AsyncLib.Lib.Ring
import AsyncLib.Lib.Deque
import AsyncLib.Lib.Bitfield
import AsyncLib.Lib.Count
import AsyncLib.Lib.Modify
import AsyncLib.Lib.Stride
import AsyncLib.Lib.Worklist
import AsyncLib.Lib.Split
import AsyncLib.Lib.HighWater
import AsyncLib.Lib.Probing
import AsyncLib.Support.Latch
import AsyncLib.Support.PointerIntPair
import AsyncLib.Support.ConcurrentVector
import AsyncLib.Support.ThreadLocal
import AsyncLib.Support.UniqueFunction
import AsyncLib.Support.UniqueFunctionRuns
import AsyncLib.Concurrent.TaskQueue
import AsyncLib.Concurrent.TaskQueueThreads
import AsyncLib.Concurrent.TaskDeque
import AsyncLib.Concurrent.TaskDequeThreads
import AsyncLib.Concurrent.TaskDequeInv
import AsyncLib.Concurrent.TaskDequeEmpty
import AsyncLib.Concurrent.TaskDequeSize
import AsyncLib.Concurrent.PointerState
import AsyncLib.Concurrent.TaskPriorityDeque
import AsyncLib.Concurrent.TaskPriorityLockDeque
import AsyncLib.Concurrent.EventCountState
import AsyncLib.Concurrent.EventCount
import AsyncLib.Concurrent.EventCountInv
import AsyncLib.Concurrent.EventCountSteps
import AsyncLib.Concurrent.EventCountNotify
import AsyncLib.Concurrent.EventCountRuns
import AsyncLib.Concurrent.EventCountSpec
import AsyncLib.Concurrent.EventCountRefines
import AsyncLib.Concurrent.Spinning
import AsyncLib.Concurrent.Victims
import AsyncLib.Concurrent.WorkQueue
import AsyncLib.Concurrent.WorkQueueSteps
import AsyncLib.Concurrent.WorkQueueInv
import AsyncLib.Concurrent.WorkQueueWake
import AsyncLib.Concurrent.WorkQueueDone
import AsyncLib.Concurrent.BlockingWorkQueue
import AsyncLib.Concurrent.DynamicHandles
import AsyncLib.Context.Waiters
import AsyncLib.Context.Heap
import AsyncLib.Context.RefCount
import AsyncLib.Context.SingleThreaded
import AsyncLib.Context.SingleThreadedAwait
import AsyncLib.Context.MultiThreaded
import AsyncLib.Context.MultiThreadedSteps
import AsyncLib.Context.MultiThreadedInv
import AsyncLib.Context.MultiThreadedTasks
import AsyncLib.Context.MultiThreadedQuiesce
import AsyncLib.Context.Forward
import AsyncLib.Context.RunWhenReady
import AsyncLib.Context.MultiThreadedAwait
import AsyncLib.Context.NativeFunction
import AsyncLib.Context.KernelFrame
import AsyncLib.Context.ProfiledAllocator
import AsyncLib.Runtime.Graph
import AsyncLib.Runtime.GraphSpec
import AsyncLib.Runtime.Wiring
import AsyncLib.Runtime.Rebuild
import AsyncLib.Runtime.Outputs
import AsyncLib.Runtime.Dump
import AsyncLib.Runtime.Sequential
import AsyncLib.Runtime.SubGraph
import AsyncLib.Runtime.Executor
import AsyncLib.Runtime.ExecutorSteps
import AsyncLib.Runtime.Flow
import AsyncLib.Runtime.Registers
import AsyncLib.Runtime.References
import AsyncLib.Runtime.Counting
import AsyncLib.Runtime.Safety
import AsyncLib.Runtime.Runs
import AsyncLib.Runtime.Lifetime
import AsyncLib.Runtime.Readiness
import AsyncLib.Runtime.Completion
import AsyncLib.Runtime.Values
import AsyncLib.Runtime.Evaluation
import AsyncLib.Runtime.TaskGraph
import AsyncLib.Runtime.TaskGraphSteps
import AsyncLib.Runtime.TaskGraphRuns
import AsyncLib.Runtime.TaskGraphLifetime
import AsyncLib.Runtime.TaskGraphTermination
import AsyncLib.Runtime.Addresses
import AsyncLib.Runtime.ExecutorLifetime
import AsyncLib.Coroutine.SharedTask
import AsyncLib.Coroutine.SharedTaskLifetime
import AsyncLib.Coroutine.WhenAllReady
import AsyncLib.Coroutine.Task
import AsyncLib.Coroutine.TaskRuns
import AsyncLib.Coroutine.ThreadPool
import AsyncLib.Runtime.BatchScheduler
import AsyncLib.Runtime.BatchClose
import AsyncLib.Runtime.Frames
import AsyncLib.Runtime.Ownership
import AsyncLib.Runtime.Termination
import AsyncLib.Runtime.Promises
