import Mathlib.Logic.Function.Basic
import Mathlib.Data.List.Basic
import ZephyrLog.Lib.Transition
import ZephyrLog.BufferBase

/-!
# The buffer queue of the Safe logger

`Buffer` and `QueueBuffer` are the classes of the same names.  `QueueBuffer::push` and
`QueueBuffer::tryPop` run as programs whose steps are the single operations on shared memory: a
producer is at one `Pc` of `push`, `Buffer::push` or `setupNextWriteBuffer`, the consumer at one of
`tryPop` or `getNextReadBuffer`.  An operation that touches only the consumer's own members is part
of the step before it.

A `Buffer*` is the number of the allocation that returned it, and the memory of a deleted buffer
stays readable and writable.  The last six fields of `System` are history: no step reads them.
-/

namespace ZephyrLog

/-- `Buffer`: its slots and its counters. -/
structure Buffer (β : Type) where
  /-- `m_buffer`: raw memory, or an `Item` with its line. -/
  buffer : ℕ → Option (Cell β)
  /-- `m_writeState`: one flag for each slot and, at index `size`, the number of lines written. -/
  writeState : ℕ → BitVec 32

namespace Buffer

variable {β : Type}

/-- `Buffer::size` -/
def size : ℕ := 32768

/-- The constructor: raw memory and a zero in each of the `size + 1` words. -/
def new : Buffer β := { buffer := fun _ => none, writeState := fun _ => 0 }

/-- The number of lines written: `m_writeState[size]`. -/
def count (b : Buffer β) : BitVec 32 := b.writeState size

/-- The flag of slot `i` is set: `m_writeState[i] == 1`. -/
def isWritten (b : Buffer β) (i : ℕ) : Prop := b.writeState i = 1

instance (b : Buffer β) (i : ℕ) : Decidable (b.isWritten i) :=
  inferInstanceAs (Decidable (b.writeState i = 1))

/-- First step of `push`: construct the `Item` in its slot. -/
def construct (b : Buffer β) (writeIndex : ℕ) (logline : β) : Buffer β :=
  { b with buffer := Function.update b.buffer writeIndex (some (.line logline)) }

/-- Second step of `push`: `m_writeState[writeIndex].store(1)`. -/
def publish (b : Buffer β) (writeIndex : ℕ) : Buffer β :=
  { b with writeState := Function.update b.writeState writeIndex 1 }

/-- Third step of `push`: `m_writeState[size].fetch_add(1)`. -/
def countUp (b : Buffer β) : Buffer β :=
  { b with writeState := Function.update b.writeState size (b.count + 1) }

/-- Second step of `tryPop`: move the line out of its slot. -/
def moveOut (b : Buffer β) (readIndex : ℕ) : Buffer β :=
  { b with buffer := Function.update b.buffer readIndex (some .movedFrom) }

/-- The destructor: the first `m_writeState[size]` items are destroyed. -/
def destroy (b : Buffer β) : Buffer β :=
  { b with buffer := fun i => if i < b.count.toNat then none else b.buffer i }

end Buffer

/-- `QueueBuffer`: its members, and the heap with its buffers. -/
structure QueueBuffer (β : Type) where
  /-- The `Buffer` at each address. -/
  heap : ℕ → Buffer β
  allocated : ℕ
  buffers : List ℕ
  currentWriteBuffer : Option ℕ
  currentReadBuffer : Option ℕ
  writeIndex : BitVec 32
  flag : Bool
  readIndex : BitVec 32

namespace QueueBuffer

variable {β T α : Type}

/-- An operation `f` on the buffer at the address `b`. -/
def onBuffer (q : QueueBuffer β) (b : ℕ) (f : Buffer β → Buffer β) : QueueBuffer β :=
  { q with heap := Function.update q.heap b (f (q.heap b)) }

/-- `m_writeIndex.fetch_add(1)` -/
def fetchAddWriteIndex (q : QueueBuffer β) : QueueBuffer β :=
  { q with writeIndex := q.writeIndex + 1 }

/-- `SpinLock lock(m_flag)` once `test_and_set` has returned false. -/
def acquire (q : QueueBuffer β) : QueueBuffer β := { q with flag := true }

/-- `~SpinLock`. -/
def release (q : QueueBuffer β) : QueueBuffer β := { q with flag := false }

/-- `std::make_unique<Buffer>()`: the new buffer's address is `q.allocated`. -/
def alloc (q : QueueBuffer β) : QueueBuffer β :=
  { q with heap := Function.update q.heap q.allocated .new, allocated := q.allocated + 1 }

/-- `m_currentWriteBuffer.store(next)` -/
def setWriteBuffer (q : QueueBuffer β) (next : ℕ) : QueueBuffer β :=
  { q with currentWriteBuffer := some next }

/-- `m_buffers.push(std::move(next))` -/
def enqueue (q : QueueBuffer β) (next : ℕ) : QueueBuffer β :=
  { q with buffers := q.buffers ++ [next] }

/-- `m_writeIndex.store(0)` -/
def resetIndex (q : QueueBuffer β) : QueueBuffer β := { q with writeIndex := 0 }

/-- `setupNextWriteBuffer`, run without interruption. -/
def setupNextWriteBuffer (q : QueueBuffer β) : QueueBuffer β :=
  ((q.acquire.alloc.setWriteBuffer q.allocated).enqueue q.allocated).resetIndex.release

/-- The constructor. -/
def new : QueueBuffer β :=
  setupNextWriteBuffer
    { heap := fun _ => .new, allocated := 0, buffers := [], currentWriteBuffer := none,
      currentReadBuffer := none, writeIndex := 0, flag := false, readIndex := 0 }

/-! ## Producers and the consumer -/

/-- One call of `push`: its thread, its number among all calls in the order in which they begin,
and its line. -/
structure Push (T α : Type) where
  thread : T
  number : ℕ
  line : α
  deriving DecidableEq, Repr

/-- The next operation of a producer inside `push`. -/
inductive Pc where
  /-- `m_writeIndex.fetch_add(1)` -/
  | claim
  /-- `m_writeIndex.load() >= Buffer::size` -/
  | spin
  /-- `m_currentWriteBuffer.load()` -/
  | load (writeIndex : ℕ)
  | construct (buffer writeIndex : ℕ)
  | publish (buffer writeIndex : ℕ)
  /-- `m_writeState[size].fetch_add(1) + 1 == size` -/
  | count (buffer : ℕ)
  | lock
  | alloc
  | setWriteBuffer (next : ℕ)
  | enqueue (next : ℕ)
  | resetIndex
  | unlock
  deriving DecidableEq, Repr

/-- A producer thread: outside `push`, or at an operation of it. -/
inductive Producer (T α : Type) where
  | idle
  | pushing (push : Push T α) (pc : Pc)
  deriving DecidableEq, Repr

instance {T α : Type} : (p : Producer T α) → Decidable (p = .idle)
  | .idle => .isTrue rfl
  | .pushing .. => .isFalse (by simp)

/-- The next operation of the consumer; between two calls, what the last one returned. -/
inductive Consumer where
  | outside (result : Option Bool)
  | lockFront
  | front
  | unlockFront (front : Option ℕ)
  /-- `m_writeState[readIndex].load() == 1` -/
  | load (readBuffer : ℕ)
  | move (readBuffer : ℕ)
  | lockPop
  | pop
  | unlockPop
  deriving DecidableEq, Repr

/-- A construction of an `Item` in a slot. -/
structure Write (T α : Type) where
  push : Push T α
  buffer : ℕ
  index : ℕ
  deriving DecidableEq, Repr

/-- The slot in which the item was constructed. -/
def Write.slot (w : Write T α) : ℕ × ℕ := (w.buffer, w.index)

/-- The queue, its producers and its consumer. -/
structure System (T α : Type) where
  queue : QueueBuffer (Push T α)
  producers : T → Producer T α
  consumer : Consumer
  /-- The variable the consumer passes to `tryPop`. -/
  logline : Cell (Push T α)
  begun : List (Push T α)
  /-- The pushes that obtained an index below `Buffer::size`, in that order. -/
  claims : List (Push T α)
  writes : List (Write T α)
  /-- How often `m_writeIndex` was set back. -/
  switches : ℕ
  popped : List (Cell (Push T α))
  /-- The buffers deleted by `m_buffers.pop()`. -/
  released : List ℕ

/-- What a producer or the consumer does next. -/
inductive Label (T α : Type) where
  /-- Thread `t` calls `push`. -/
  | push (t : T) (line : α)
  /-- Thread `t` executes its next operation. -/
  | produce (t : T)
  /-- The allocation of thread `t` throws `std::bad_alloc`. -/
  | badAlloc (t : T)
  /-- The consumer calls `tryPop`. -/
  | tryPop
  /-- The consumer executes its next operation. -/
  | consume

namespace System

/-- The queue as constructed, with no call in flight. -/
def init : System T α :=
  { queue := .new, producers := fun _ => .idle, consumer := .outside none,
    logline := .placeholder, begun := [], claims := [], writes := [], switches := 0, popped := [],
    released := [] }

/-- The queue has become `q`. -/
def setQueue (s : System T α) (q : QueueBuffer (Push T α)) : System T α := { s with queue := q }

/-- The consumer goes on with the next operation `pc` in the queue `q`. -/
def await (s : System T α) (q : QueueBuffer (Push T α)) (pc : Consumer) : System T α :=
  { s with queue := q, consumer := pc }

/-- The consumer has moved the line out of the slot of `readBuffer` it looks at. -/
def afterMove (s : System T α) (readBuffer : ℕ) (c : Cell (Push T α)) : System T α :=
  { s with
    queue := s.queue.onBuffer readBuffer (·.moveOut s.queue.readIndex.toNat)
    logline := c
    popped := s.popped ++ [c] }

/-- `m_readIndex++`, and the end of the buffer when that reaches `Buffer::size`. -/
def advance (s : System T α) : System T α :=
  if (s.queue.readIndex + 1).toNat = Buffer.size then
    s.await { s.queue with readIndex := 0, currentReadBuffer := none } .lockPop
  else s.await { s.queue with readIndex := s.queue.readIndex + 1 } (.outside (some true))

/-- `m_buffers.pop()` with front buffer `b`. -/
def afterPop (s : System T α) (b : ℕ) (rest : List ℕ) : System T α :=
  { s with
    queue := { s.queue.onBuffer b Buffer.destroy with buffers := rest }
    consumer := .unlockPop
    released := s.released ++ [b] }

/-- The next operation of the consumer; `none` between two calls, and where the behaviour of the
code is undefined. -/
def consume (s : System T α) : Option (System T α) :=
  match s.consumer with
  | .outside _ => none
  | .lockFront => some (if s.queue.flag then s else s.await s.queue.acquire .front)
  | .front => some (s.await s.queue (.unlockFront s.queue.buffers.head?))
  | .unlockFront none => some (s.await s.queue.release (.outside (some false)))
  | .unlockFront (some b) =>
    some (s.await { s.queue.release with currentReadBuffer := some b } (.load b))
  | .load b =>
    if (s.queue.heap b).isWritten s.queue.readIndex.toNat then some (s.await s.queue (.move b))
    else some (s.await s.queue (.outside (some false)))
  | .move b =>
    ((s.queue.heap b).buffer s.queue.readIndex.toNat).map fun c => (s.afterMove b c).advance
  | .lockPop => some (if s.queue.flag then s else s.await s.queue.acquire .pop)
  | .pop => match s.queue.buffers with
    | [] => none
    | b :: rest => some (s.afterPop b rest)
  | .unlockPop => some (s.await s.queue.release (.outside (some true)))

/-- A thread has called `push`. -/
def begin (s : System T α) (p : Push T α) : System T α := { s with begun := s.begun ++ [p] }

/-- The push `p` has obtained an index below `Buffer::size`. -/
def afterClaim (s : System T α) (p : Push T α) : System T α :=
  { s with queue := s.queue.fetchAddWriteIndex, claims := s.claims ++ [p] }

/-- The push `p` has constructed its item in slot `w` of the buffer `b`. -/
def afterConstruct (s : System T α) (p : Push T α) (b w : ℕ) : System T α :=
  { s with
    queue := s.queue.onBuffer b (·.construct w p)
    writes := s.writes ++ [⟨p, b, w⟩] }

/-- `m_writeIndex.store(0)`. -/
def afterReset (s : System T α) : System T α :=
  { s with queue := s.queue.resetIndex, switches := s.switches + 1 }

variable [DecidableEq T]

/-- Thread `t` goes on with the next operation `pc` of its call `p`. -/
def goto (s : System T α) (t : T) (p : Push T α) (pc : Pc) : System T α :=
  { s with producers := Function.update s.producers t (.pushing p pc) }

/-- The call of thread `t` ends. -/
def leave (s : System T α) (t : T) : System T α :=
  { s with producers := Function.update s.producers t .idle }

/-- Thread `t` executes the operation `pc` of its call `p`. -/
def produce (s : System T α) (t : T) (p : Push T α) : Pc → Option (System T α)
  | .claim =>
    if s.queue.writeIndex.toNat < Buffer.size then
      some ((s.afterClaim p).goto t p (.load s.queue.writeIndex.toNat))
    else some ((s.setQueue s.queue.fetchAddWriteIndex).goto t p .spin)
  | .spin => some (if Buffer.size ≤ s.queue.writeIndex.toNat then s else s.goto t p .claim)
  | .load w => s.queue.currentWriteBuffer.map fun b => s.goto t p (.construct b w)
  | .construct b w =>
    some ((s.afterConstruct p b w).goto t p (.publish b w))
  | .publish b w => some ((s.setQueue (s.queue.onBuffer b (·.publish w))).goto t p (.count b))
  | .count b =>
    if ((s.queue.heap b).count + 1).toNat = Buffer.size then
      some ((s.setQueue (s.queue.onBuffer b .countUp)).goto t p .lock)
    else some ((s.setQueue (s.queue.onBuffer b .countUp)).leave t)
  | .lock => some (if s.queue.flag then s else (s.setQueue s.queue.acquire).goto t p .alloc)
  | .alloc => some ((s.setQueue s.queue.alloc).goto t p (.setWriteBuffer s.queue.allocated))
  | .setWriteBuffer next =>
    some ((s.setQueue (s.queue.setWriteBuffer next)).goto t p (.enqueue next))
  | .enqueue next => some ((s.setQueue (s.queue.enqueue next)).goto t p .resetIndex)
  | .resetIndex =>
    some (s.afterReset.goto t p .unlock)
  | .unlock => some ((s.setQueue s.queue.release).leave t)

/-- One operation of a producer or of the consumer; none if the call is not where it says. -/
def step (s : System T α) : Label T α → Option (System T α)
  | .push t a => match s.producers t with
    | .idle => some ((s.begin ⟨t, s.begun.length, a⟩).goto t ⟨t, s.begun.length, a⟩ .claim)
    | .pushing .. => none
  | .produce t => match s.producers t with
    | .idle => none
    | .pushing p pc => s.produce t p pc
  | .badAlloc t => match s.producers t with
    | .pushing p .alloc => some (s.goto t p .unlock)
    | _ => none
  | .tryPop => match s.consumer with
    | .outside _ => some (s.await s.queue (match s.queue.currentReadBuffer with
      | none => .lockFront
      | some b => .load b))
    | _ => none
  | .consume => s.consume

end System

/-- Any number of producers and one consumer on one queue. -/
def machine (T α : Type) [DecidableEq T] : Machine (System T α) (Label T α) where
  init := .init
  step := System.step

/-- No producer is inside `push`. -/
def System.NoPushInFlight (s : System T α) : Prop := ∀ t, s.producers t = .idle

end QueueBuffer

end ZephyrLog
