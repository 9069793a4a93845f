import Mathlib.Data.List.Basic
import ZephyrLog.Lib.Transition

/-!
# The interface of both buffers

`RingBuffer` and `QueueBuffer` implement `BufferBase`: producers move a line in with `push`, the
consumer moves one out with `tryPop` into a variable of its own.  The class `BufferBase` is this
interface with the single operations of the calls as steps, so that the logger and its proofs are
written once, for any buffer.
-/

namespace ZephyrLog

/-- What a `LogLine` object holds: the placeholder line it was constructed with, a line moved into
it, or nothing after it was moved from. -/
inductive Cell (α : Type) where
  | placeholder
  | line (logline : α)
  | movedFrom
  deriving DecidableEq, Repr

theorem Cell.line_injective {α : Type} : Function.Injective (Cell.line : α → Cell α) :=
  fun _ _ h => Cell.line.inj h

/-- The operations on a buffer. -/
inductive BufferBase.Op (T α : Type) where
  /-- Thread `t` calls `push`. -/
  | push (t : T) (line : α)
  /-- Thread `t` executes its next operation inside `push`. -/
  | produce (t : T)
  /-- The allocation of thread `t` throws `std::bad_alloc`. -/
  | badAlloc (t : T)
  /-- The consumer calls `tryPop`. -/
  | tryPop
  /-- The consumer executes its next operation inside `tryPop`. -/
  | consume

/-- What a buffer keeps for a line: the line, and to which call of `push` it belongs. -/
class Pushed (L : Type) (α : outParam Type) where
  line : L → α

/-- A buffer of type `B` with its consumer and the threads `T` that push lines of type `α`, each of
which it keeps as an `L`. -/
class BufferBase (B : Type) (T α L : outParam Type) where
  step : B → BufferBase.Op T α → Option B
  /-- What the last call of `tryPop` has returned; `none` while one is in progress. -/
  result : B → Option (Option Bool)
  /-- The variable the consumer passes to `tryPop`. -/
  logline : B → Cell L
  /-- No thread is inside `push`. -/
  NoPushInFlight : B → Prop

/-- A buffer that starts as `b`. -/
def BufferBase.machine {B T α L : Type} [BufferBase B T α L] (b : B) : Machine B (Op T α) where
  init := b
  step := BufferBase.step

end ZephyrLog
