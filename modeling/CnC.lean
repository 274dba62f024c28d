import CnC.Library.Transition
import CnC.Library.Network
import CnC.Join
import CnC.Scheduler.Schedulable
import CnC.Scheduler.SuspendResume
import CnC.Item.Table
import CnC.Item.Collection
import CnC.Item.Operations
import CnC.Item.Effect
import CnC.Item.Ownership
import CnC.Item.GetCount
import CnC.Item.Garbage
import CnC.Item.Erase
import CnC.Item.Request
import CnC.Wait.Loop
import CnC.Wait.Round
import CnC.Wait.Simulation
import CnC.Wait.Count
import CnC.Wait.Moves
import CnC.Wait.Settled
import CnC.Wait.Quiescence
import CnC.Reduce.Reduction
import CnC.Tag.Collection
import CnC.Tag.Memoization
import CnC.Tag.Insertion
import CnC.Tag.Callbacks
import CnC.Item.Interchange
import CnC.Item.Reset
import CnC.Item.Callbacks
import CnC.Item.Gather
import CnC.Flush.Distributor
import CnC.Library.Marker
import CnC.Flush.Protocol
import CnC.Flush.Accounting
import CnC.Flush.Progress
import CnC.Scheduler.Execute
import CnC.Library.Places
import CnC.Scheduler.Owner
import CnC.Scheduler.Successor
import CnC.Scheduler.Ledger
import CnC.Scheduler.Bypass
import CnC.Scheduler.InFlight
import CnC.Scheduler.Destroy
import CnC.Range.Partitioner
import CnC.Range.SelfDividing
import CnC.Library.Pool
import CnC.Comm.Buffer
import CnC.Range.ParallelFor
import CnC.Scheduler.FlushGets
import CnC.Comm.MpiChannel
import CnC.Item.GcRound
import CnC.Item.GatherExact
import CnC.Serialize.Buffer
import CnC.Serialize.Serializer
import CnC.Serialize.Modes
import CnC.Serialize.Encoding
import CnC.Serialize.RoundTrip
import CnC.Serialize.Batch
import CnC.Range.Transfer
import CnC.Scheduler.ComputeOn
import CnC.Library.Combinable
import CnC.Reduce.Local
import CnC.Library.Convergecast
import CnC.Reduce.Tree
import CnC.Item.Environment
import CnC.Item.Size
import CnC.Item.GetList
import CnC.Range.GrainSize
import CnC.Range.IntRange
import CnC.Scheduler.Cancel
import CnC.Scheduler.RoundRobin
import CnC.Scheduler.WaitAll
import CnC.Scheduler.Placed
import CnC.Scheduler.Frames
import CnC.Scheduler.Exclusive
import CnC.Scheduler.Guarded
import CnC.Library.Amount
import CnC.Reduce.Steps
import CnC.Reduce.Owned
import CnC.Reduce.Once
import CnC.Reduce.Counting
import CnC.Reduce.Phase
import CnC.Reduce.CountPhase
import CnC.Reduce.ValuePhase
import CnC.Reduce.Completion
import CnC.Reduce.Values
import CnC.Scheduler.Queues
import CnC.Reduce.Flush
import CnC.Reduce.Finalize
import CnC.Reduce.LocalFlush
import CnC.Reduce.FlushOnce
