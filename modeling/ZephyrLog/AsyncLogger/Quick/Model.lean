import Mathlib.Data.Fintype.Defs
import ZephyrLog.AsyncLogger.Model
import ZephyrLog.RingBuffer.Atomicity

/-!
# The asynchronous logger of the Quick mode

The other constructor of `AsyncLogger` gives it a `RingBuffer` of `bufferSize` items.  A push into a
ring allocates nothing, so that `BufferBase.Op.badAlloc` is none of its operations.
-/

namespace ZephyrLog

namespace RingBuffer

namespace Locked

variable {T α : Type}

/-- The operations of a `BufferBase` that are those of the ring. -/
def Label.ofOp : BufferBase.Op T α → Option (Label T α)
  | .push t a => some (.push t a)
  | .produce t => some (.produce t)
  | .badAlloc _ => none
  | .tryPop => some .tryPop
  | .consume => some .consume

/-- What the last call of `tryPop` has returned. -/
def Consumer.result : Consumer → Option (Option Bool)
  | .outside result => some result
  | _ => none

/-- No thread is inside `push`. -/
def System.NoPushInFlight (s : System T α) : Prop := ∀ t, s.producers t = .idle

instance : Pushed (Entry α) α := ⟨Entry.line⟩

instance [DecidableEq T] : BufferBase (System T α) T α (Entry α) where
  step s op := (Label.ofOp op).bind s.step
  result s := s.consumer.result
  logline := System.logline
  NoPushInFlight := System.NoPushInFlight

instance [Fintype T] [DecidableEq T] (s : System T α) :
    Decidable (BufferBase.NoPushInFlight s) :=
  inferInstanceAs (Decidable (∀ t, s.producers t = .idle))

end Locked

end RingBuffer

namespace AsyncLogger

namespace Quick

variable {T α : Type}

/-- A logger on a ring. -/
abbrev System (T α : Type) := AsyncLogger (RingBuffer.Locked.System T α) (Entry α)

/-- A Quick logger on a ring of `bufferSize` items with any number of threads that call `add`. -/
def machine (T α : Type) [DecidableEq T] (bufferSize : ℕ) : Machine (System T α) (Label T α) :=
  AsyncLogger.machine (.init bufferSize)

/-- A line is added only while the ring has room for it. -/
def NotOverrun (bufferSize : ℕ) (s : System T α) (l : Label T α) : Prop :=
  ∀ t a, l = .add t a → s.buffer.entries.length < s.buffer.popped.length + bufferSize

instance (bufferSize : ℕ) (s : System T α) (l : Label T α) :
    Decidable (NotOverrun bufferSize s l) :=
  match l with
  | .add _ _ =>
    decidable_of_iff (s.buffer.entries.length < s.buffer.popped.length + bufferSize)
      (by simp [NotOverrun])
  | .produce _ | .badAlloc _ | .work | .own | .destroy => isTrue (by simp [NotOverrun])

/-- Every `add` returns before the destructor begins, and finds room in the ring. -/
def Careful [DecidableEq T] (bufferSize : ℕ) (s : System T α) (l : Label T α) : Prop :=
  AddsReturned s l ∧ NotOverrun bufferSize s l

instance [Fintype T] [DecidableEq T] (bufferSize : ℕ) (s : System T α)
    (l : Label T α) : Decidable (Careful bufferSize s l) :=
  inferInstanceAs (Decidable (_ ∧ _))

/-- The store or the look at a mark that a step of the logger makes in its ring. -/
def answer (s : System T α) (l : Label T α) : Option (RingBuffer.Label T α) :=
  ((s.operation l).bind RingBuffer.Locked.Label.ofOp).bind (RingBuffer.Locked.answer s.buffer)

/-- The logger with the stores and the looks at marks of its run. -/
def recorded (T α : Type) [DecidableEq T] (bufferSize : ℕ) :
    Machine (System T α × List (RingBuffer.Label T α)) (Label T α) :=
  (machine T α bufferSize).record fun s l => (answer s l).toList

end Quick

end AsyncLogger

end ZephyrLog
