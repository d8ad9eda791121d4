import LowLatency.Concurrency.System
import LowLatency.Concurrency.Slots
import LowLatency.Concurrency.Object
import LowLatency.NextPowerOfTwo
import LowLatency.LockFreeQueue.Basic
import LowLatency.LockFreeQueue.Invariant
import LowLatency.LockFreeQueue.Concurrent
import LowLatency.LockFreeQueue.Sequential
import LowLatency.Cell
import LowLatency.WorkStealingDeque.Basic
import LowLatency.WorkStealingDeque.Conservation
import LowLatency.WorkStealingDeque.Invariant
import LowLatency.WorkStealingDeque.Range
import LowLatency.WorkStealingQueue.Basic
import LowLatency.WorkStealingQueue.Grow
import LowLatency.WorkStealingQueue.Invariant
import LowLatency.WorkStealingQueue.Safety
import LowLatency.WorkStealingQueue.Strand
import LowLatency.Concurrency.Monitor
import LowLatency.RingBuffer
import LowLatency.ThreadPool.Basic
import LowLatency.ThreadPool.Invariant
import LowLatency.ThreadPool.Drain
import LowLatency.Concurrency.Custody
import LowLatency.LockFreeQueue.Custody
import LowLatency.WorkStealingDeque.Custody
import LowLatency.WorkStealingThreadPool.Parts
import LowLatency.WorkStealingThreadPool.Basic
import LowLatency.WorkStealingThreadPool.Access
import LowLatency.WorkStealingThreadPool.Conservation
import LowLatency.WorkStealingThreadPool.Counters
import LowLatency.WorkStealingThreadPool.Positions
import LowLatency.WorkStealingThreadPool.WakeUp
import LowLatency.ThreadPool.WakeUp
import LowLatency.ThreadPool.Refusal
import LowLatency.Concurrency.Closing
import LowLatency.ThreadPool.Shutdown
import LowLatency.WorkStealingThreadPool.Shutdown
import LowLatency.Pools.Shutdown
import LowLatency.ThreadPool.Idle
import LowLatency.WorkStealingThreadPool.Idle
import LowLatency.Pools.Idle
import LowLatency.SPSCRingBuffer.Basic
import LowLatency.SPSCRingBuffer.Invariant
import LowLatency.SPSCRingBuffer.Fifo
import LowLatency.Concurrency.StoreBuffer
import LowLatency.LightEpoch
import LowLatency.WorkStealingDeque.StoreBuffer
import LowLatency.WorkStealingDeque.StoreOrder
import LowLatency.WorkStealingDeque.Takings
import LowLatency.WorkStealingQueue.Sequential
import LowLatency.Pools.Exceptions
import LowLatency.RingBuffer.Sequential
import LowLatency.Concurrency.Snapshot
import LowLatency.LockFreeQueue.Snapshot
import LowLatency.SPSCRingBuffer.Snapshot
import LowLatency.Concurrency.Potential
import LowLatency.LockFreeQueue.Alone
import LowLatency.MemoryPool.Basic
import LowLatency.MemoryPool.Conservation
import LowLatency.MemoryPool.Allocation
import LowLatency.Pools.TraceSink
import LowLatency.SPSCRingBuffer.Throwing
import LowLatency.LockFreeQueue.Published
import LowLatency.WorkStealingThreadPool.Metrics
import LowLatency.WorkStealingDeque.Waiting
import LowLatency.WorkStealingThreadPool.Blocked
import LowLatency.NextPowerOfTwo.Exact
import LowLatency.WorkStealingThreadPool.Drain
import LowLatency.Concurrency.Termination
import LowLatency.ThreadPool.Termination
import LowLatency.Concurrency.Linearizable
import LowLatency.LockFreeQueue.Linearizable
import LowLatency.Concurrency.Locked
import LowLatency.LockedRingBuffer
import LowLatency.Concurrency.Amortized
import LowLatency.LockFreeQueue.Contention
import LowLatency.PipelineDemo.Basic
import LowLatency.PipelineDemo.Submission
import LowLatency.PipelineDemo.Tasks
import LowLatency.PipelineDemo.Accepted
import LowLatency.PipelineDemo.Result
import LowLatency.Concurrency.Refinement
import LowLatency.LockFreeQueue.StoreBuffer
import LowLatency.LockFreeQueue.StoreOrder
import LowLatency.Concurrency.RelyGuarantee
import LowLatency.SPSCRingBuffer.StoreBuffer
import LowLatency.ThreadPool.Order
import LowLatency.LightEpoch.Termination
import LowLatency.Pools.Futures
import LowLatency.WorkStealingQueue.Reclaim
import LowLatency.Concurrency.Positions
import LowLatency.WorkStealingDeque.Linearizable
import LowLatency.WorkStealingQueue.Linearizable
