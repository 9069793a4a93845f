import Mathlib.Data.Fintype.Defs
import ZephyrLog.AsyncLogger.Model
import ZephyrLog.QueueBuffer.Model

/-!
# The asynchronous logger of the Safe mode

One of the constructors of `AsyncLogger` gives it a `QueueBuffer`.
-/

namespace ZephyrLog

namespace QueueBuffer

variable {T α : Type}

/-- The operations of a `BufferBase` are those of the queue. -/
def Label.ofOp : BufferBase.Op T α → Label T α
  | .push t a => .push t a
  | .produce t => .produce t
  | .badAlloc t => .badAlloc t
  | .tryPop => .tryPop
  | .consume => .consume

/-- What the last call of `tryPop` has returned. -/
def Consumer.result : Consumer → Option (Option Bool)
  | .outside result => some result
  | _ => none

instance : Pushed (Push T α) α := ⟨Push.line⟩

instance [DecidableEq T] : BufferBase (System T α) T α (Push T α) where
  step s op := s.step (.ofOp op)
  result s := s.consumer.result
  logline := System.logline
  NoPushInFlight := System.NoPushInFlight

instance [Fintype T] [DecidableEq T] (s : System T α) :
    Decidable (BufferBase.NoPushInFlight s) :=
  inferInstanceAs (Decidable (∀ t, s.producers t = .idle))

end QueueBuffer

namespace AsyncLogger

namespace Safe

/-- A logger on a buffer queue. -/
abbrev System (T α : Type) := AsyncLogger (QueueBuffer.System T α) (QueueBuffer.Push T α)

/-- A Safe logger with any number of threads that call `add`. -/
def machine (T α : Type) [DecidableEq T] : Machine (System T α) (Label T α) :=
  AsyncLogger.machine .init

end Safe

end AsyncLogger

end ZephyrLog
