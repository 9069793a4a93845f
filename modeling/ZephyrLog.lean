import ZephyrLog.AsyncLogger.Contract
import ZephyrLog.AsyncLogger.Model
import ZephyrLog.AsyncLogger.Quick.Model
import ZephyrLog.AsyncLogger.Quick.Shutdown
import ZephyrLog.AsyncLogger.Safe.Model
import ZephyrLog.AsyncLogger.Safe.Shutdown
import ZephyrLog.AsyncLogger.Steps
import ZephyrLog.AsyncLogger.Termination
import ZephyrLog.AsyncLogger.Working
import ZephyrLog.BufferBase
import ZephyrLog.FileWriter.Failing
import ZephyrLog.FileWriter.Model
import ZephyrLog.FileWriter.Retention
import ZephyrLog.FileWriter.Rolling
import ZephyrLog.Lib.Bytes
import ZephyrLog.Lib.Counter
import ZephyrLog.Lib.Fairness
import ZephyrLog.Lib.Files
import ZephyrLog.Lib.Grouping
import ZephyrLog.Lib.Keyed
import ZephyrLog.Lib.Lifetime
import ZephyrLog.Lib.SharedMutex
import ZephyrLog.Lib.Simulation
import ZephyrLog.Lib.SpinLock
import ZephyrLog.Lib.Threads
import ZephyrLog.Lib.TicketQueue
import ZephyrLog.Lib.Transition
import ZephyrLog.Lib.Visit
import ZephyrLog.LogLine.Copies
import ZephyrLog.LogLine.Deferred
import ZephyrLog.LogLine.Encode
import ZephyrLog.LogLine.Growth
import ZephyrLog.LogLine.Model
import ZephyrLog.LogLine.Objects
import ZephyrLog.LogLine.RoundTrip
import ZephyrLog.LogLine.Values
import ZephyrLog.Logging.Destruction
import ZephyrLog.Logging.Handover
import ZephyrLog.Logging.Lifetime
import ZephyrLog.Logging.Loggers
import ZephyrLog.Logging.Model
import ZephyrLog.Logging.Mutex
import ZephyrLog.Logging.Names
import ZephyrLog.Logging.Ownership
import ZephyrLog.Logging.Persistence
import ZephyrLog.Logging.Steps
import ZephyrLog.Logging.Termination
import ZephyrLog.Pipeline.Delivery
import ZephyrLog.Pipeline.Model
import ZephyrLog.Pipeline.Quick
import ZephyrLog.Pipeline.Safe
import ZephyrLog.QueueBuffer.Completion
import ZephyrLog.QueueBuffer.Exclusion
import ZephyrLog.QueueBuffer.FailedSwitch
import ZephyrLog.QueueBuffer.Fifo
import ZephyrLog.QueueBuffer.History
import ZephyrLog.QueueBuffer.Lifetime
import ZephyrLog.QueueBuffer.Model
import ZephyrLog.QueueBuffer.Progress
import ZephyrLog.QueueBuffer.Protocol
import ZephyrLog.QueueBuffer.Reading
import ZephyrLog.QueueBuffer.Refinement
import ZephyrLog.QueueBuffer.Rest
import ZephyrLog.QueueBuffer.Slots
import ZephyrLog.QueueBuffer.Steps
import ZephyrLog.QueueBuffer.Switching
import ZephyrLog.QueueBuffer.Writes
import ZephyrLog.Registry.Access
import ZephyrLog.Registry.Agreement
import ZephyrLog.Registry.Alive
import ZephyrLog.Registry.Atomicity
import ZephyrLog.Registry.Interleaving
import ZephyrLog.Registry.Level
import ZephyrLog.Registry.Linearization
import ZephyrLog.Registry.Model
import ZephyrLog.Registry.Pointers
import ZephyrLog.Registry.Serial
import ZephyrLog.RingBuffer.Atomicity
import ZephyrLog.RingBuffer.Calls
import ZephyrLog.RingBuffer.Completion
import ZephyrLog.RingBuffer.Conservation
import ZephyrLog.RingBuffer.Cyclic
import ZephyrLog.RingBuffer.Drain
import ZephyrLog.RingBuffer.Fifo
import ZephyrLog.RingBuffer.Locked
import ZephyrLog.RingBuffer.Model
import ZephyrLog.RingBuffer.Order
import ZephyrLog.RingBuffer.Overrun
import ZephyrLog.RingBuffer.Refinement
import ZephyrLog.RingBuffer.Tickets
