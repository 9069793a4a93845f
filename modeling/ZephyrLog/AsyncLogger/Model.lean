import ZephyrLog.BufferBase

/-!
# The asynchronous logger

`AsyncLogger` owns a buffer and a worker thread that runs `AsyncLogger::pop`.  The worker is the
consumer of the buffer; producers reach the buffer through `add`; the thread that owns the logger
runs the constructor, whose last action is to store `READY`, and the destructor, which stores
`SHUTDOWN` and joins the worker.  The worker's steps inside `tryPop` are those of the buffer's
consumer, so every interleaving of the buffer is one of the logger.

The buffer is any implementation of `BufferBase`; the two constructors of the class choose between
a `QueueBuffer` and a `RingBuffer`.
-/

namespace ZephyrLog

namespace AsyncLogger

/-- `AsyncLogger::State`. -/
inductive State where
  | init
  | ready
  | shutdown
  deriving DecidableEq, Repr

/-- The two loops of `pop` that call `tryPop`. -/
inductive Loop where
  | ready
  | drain
  deriving DecidableEq, Repr

/-- The next operation of the worker thread in `AsyncLogger::pop`. -/
inductive Worker where
  /-- `m_state.load() == State::INIT` -/
  | waitInit
  /-- `m_state.load() == State::READY` -/
  | loadState
  | tryPop (loop : Loop)
  /-- The next operation is one of the buffer's `tryPop`. -/
  | inside (loop : Loop)
  /-- `m_writer.write(logline)` -/
  | write (loop : Loop)
  | ended
  deriving DecidableEq, Repr

/-- The thread that owns the logger. -/
inductive Owner where
  /-- The constructor's `m_state.store(State::READY)`; the worker runs already. -/
  | constructing
  | running
  /-- The destructor's `m_state.store(State::SHUTDOWN)`. -/
  | destroying
  /-- The destructor's `m_thread.join()`. -/
  | joining
  | joined
  deriving DecidableEq, Repr

/-- The steps of the threads of a logger. -/
inductive Label (T α : Type) where
  /-- Thread `t` calls `add`, which calls `push`. -/
  | add (t : T) (line : α)
  | produce (t : T)
  | badAlloc (t : T)
  | work
  | own
  /-- The destructor begins. -/
  | destroy

/-- Where the worker goes after writing a line. -/
def Loop.again : Loop → Worker
  | .ready => .loadState
  | .drain => .tryPop .drain

/-- Where the worker goes when `tryPop` has returned false. -/
def Loop.failed : Loop → Worker
  | .ready => .loadState
  | .drain => .ended

/-- Where the worker goes after an operation of `tryPop`, which may have returned. -/
def Loop.resume (loop : Loop) : Option (Option Bool) → Worker
  | none => .inside loop
  | some (some true) => .write loop
  | some _ => loop.failed

end AsyncLogger

/-- A logger on a buffer of type `B`, with its threads. -/
structure AsyncLogger (B L : Type) where
  state : AsyncLogger.State
  buffer : B
  worker : AsyncLogger.Worker
  owner : AsyncLogger.Owner
  /-- The lines passed to `FileWriter::write`. -/
  written : List (Cell L)

namespace AsyncLogger

variable {B T α L : Type}

/-- The worker has just been started by the constructor; its `logline` is the null-file line. -/
def new (buffer : B) : AsyncLogger B L :=
  { state := .init, buffer, worker := .waitInit, owner := .constructing, written := [] }

/-- The next operation of the thread that runs the constructor and the destructor. -/
def own (s : AsyncLogger B L) : Option (AsyncLogger B L) :=
  match s.owner with
  | .constructing => some { s with state := .ready, owner := .running }
  | .running => none
  | .destroying => some { s with state := .shutdown, owner := .joining }
  | .joining => if s.worker = .ended then some { s with owner := .joined } else none
  | .joined => none

/-- An operation on the buffer. -/
def onBuffer [BufferBase B T α L] (s : AsyncLogger B L) (op : BufferBase.Op T α) :
    Option (AsyncLogger B L) :=
  (BufferBase.step s.buffer op).map fun b => { s with buffer := b }

/-- The next operation of `AsyncLogger::pop`. -/
def work [BufferBase B T α L] (s : AsyncLogger B L) : Option (AsyncLogger B L) :=
  match s.worker with
  | .waitInit => some (if s.state = .init then s else { s with worker := .loadState })
  | .loadState =>
    some { s with worker := .tryPop (if s.state = .ready then .ready else .drain) }
  | .tryPop loop => (s.onBuffer .tryPop).map fun s => { s with worker := .inside loop }
  | .inside loop =>
    (s.onBuffer .consume).map fun s => { s with worker := loop.resume (BufferBase.result s.buffer) }
  | .write loop =>
    some { s with
      written := s.written ++ [BufferBase.logline s.buffer]
      worker := loop.again }
  | .ended => none

/-- A step of one of the threads. -/
def step [BufferBase B T α L] (s : AsyncLogger B L) : Label T α → Option (AsyncLogger B L)
  | .add t a => s.onBuffer (.push t a)
  | .produce t => s.onBuffer (.produce t)
  | .badAlloc t => s.onBuffer (.badAlloc t)
  | .work => s.work
  | .own => s.own
  | .destroy => if s.owner = .running then some { s with owner := .destroying } else none

/-- A logger on the buffer `b`, with any number of threads that call `add`. -/
def machine [BufferBase B T α L] (b : B) : Machine (AsyncLogger B L) (Label T α) where
  init := .new b
  step := step

/-- The operation on the buffer that a step makes. -/
def operation (s : AsyncLogger B L) : Label T α → Option (BufferBase.Op T α)
  | .add t a => some (.push t a)
  | .produce t => some (.produce t)
  | .badAlloc t => some (.badAlloc t)
  | .work => match s.worker with
    | .tryPop _ => some .tryPop
    | .inside _ => some .consume
    | _ => none
  | .own | .destroy => none

/-- Every `add` has returned before the destructor begins, and none begins after that. -/
def AddsReturned [BufferBase B T α L] (s : AsyncLogger B L) (l : Label T α) : Prop :=
  (l = .destroy → BufferBase.NoPushInFlight s.buffer) ∧
    ∀ t a, l = .add t a → s.owner = .constructing ∨ s.owner = .running

instance [BufferBase B T α L] (s : AsyncLogger B L) (l : Label T α)
    [Decidable (BufferBase.NoPushInFlight s.buffer)] : Decidable (AddsReturned s l) :=
  match l with
  | .destroy =>
    decidable_of_iff (BufferBase.NoPushInFlight s.buffer) (by simp [AddsReturned])
  | .add _ _ =>
    decidable_of_iff (s.owner = .constructing ∨ s.owner = .running) (by simp [AddsReturned])
  | .produce _ | .badAlloc _ | .work | .own => isTrue (by simp [AddsReturned])

/-- The owner is in the destructor, or past it. -/
def Owner.Destroying : Owner → Prop
  | .constructing | .running => False
  | .destroying | .joining | .joined => True

end AsyncLogger

end ZephyrLog
