import ZephyrLog.Lib.SpinLock
import ZephyrLog.RingBuffer.Model

/-!
# The ring with its spin locks

`RingBuffer::push` and `RingBuffer::tryPop` operation by operation: each item has a flag that
`SpinLock` sets with `test_and_set` and clears in its destructor, and in between a producer moves
its line into the item and marks it, or the consumer looks at the mark, moves the line out and
clears the mark.  An operation that touches only the consumer's own members is part of the step
before it.

The last two fields of `System` are history: no step reads them.
-/

namespace ZephyrLog

namespace RingBuffer

namespace Locked

/-- The next operation of a producer that has obtained an index. -/
inductive Pc where
  /-- `SpinLock lock(item.flag)`: `test_and_set` -/
  | acquire
  /-- `item.logline = std::move(logline)` -/
  | move
  /-- `item.written = 1` -/
  | mark
  /-- `~SpinLock` -/
  | release
  deriving DecidableEq, Repr

/-- A producer thread: outside `push`, or at an operation on its item. -/
inductive Producer (α : Type) where
  | idle
  | pushing (index : ℕ) (logline : α) (pc : Pc)
  deriving DecidableEq, Repr

instance {α : Type} : (p : Producer α) → Decidable (p = .idle)
  | .idle => .isTrue rfl
  | .pushing .. => .isFalse (by simp)

/-- The next operation of the consumer on the item `index`; between two calls, what the last one
returned. -/
inductive Consumer where
  | outside (result : Option Bool)
  | acquire (index : ℕ)
  /-- `item.written == 1` -/
  | check (index : ℕ)
  /-- `logline = std::move(item.logline)` -/
  | move (index : ℕ)
  /-- `item.written = 0` and `++m_readIndex` -/
  | clear (index : ℕ)
  | release (index : ℕ) (result : Bool)
  deriving DecidableEq, Repr

/-- The ring with the flags of its items, its producers and its consumer. -/
structure System (T α : Type) where
  ring : RingBuffer (Entry α)
  /-- The `flag` of each item. -/
  flags : ℕ → Bool
  producers : T → Producer (Entry α)
  consumer : Consumer
  /-- The variable the consumer passes to `tryPop`. -/
  logline : Cell (Entry α)
  /-- The lines in the order of their claims. -/
  entries : List (Entry α)
  popped : List (Cell (Entry α))

/-- What a producer or the consumer does next. -/
inductive Label (T α : Type) where
  /-- Thread `t` calls `push` and obtains an index. -/
  | push (t : T) (line : α)
  /-- Thread `t` executes its next operation. -/
  | produce (t : T)
  /-- The consumer calls `tryPop`. -/
  | tryPop
  /-- The consumer executes its next operation. -/
  | consume

variable {T α : Type}

namespace System

/-- The ring as constructed, with no call in flight. -/
def init (size : ℕ) : System T α :=
  { ring := .new size, flags := fun _ => false, producers := fun _ => .idle,
    consumer := .outside none, logline := .placeholder, entries := [], popped := [] }

/-- `flag` of the item `index` becomes `flag`. -/
def setFlag (s : System T α) (index : ℕ) (flag : Bool) : System T α :=
  { s with flags := Function.update s.flags index flag }

/-- The item `index` becomes `item`. -/
def setItem (s : System T α) (index : ℕ) (item : Item (Entry α)) : System T α :=
  { s with ring := { s.ring with ring := Function.update s.ring.ring index item } }

/-- The consumer goes on with the operation `pc`. -/
def await (s : System T α) (pc : Consumer) : System T α := { s with consumer := pc }

/-- `++m_readIndex` -/
def advance (s : System T α) : System T α :=
  { s with ring := { s.ring with readIndex := s.ring.readIndex + 1 } }

/-- The consumer has moved the line `c` into its variable. -/
def receive (s : System T α) (c : Cell (Entry α)) : System T α :=
  { s with logline := c, popped := s.popped ++ [c] }

/-- The next operation of the consumer. -/
def consume (s : System T α) : Option (System T α) :=
  match s.consumer with
  | .outside _ => none
  | .acquire i => some (if s.flags i then s else (s.setFlag i true).await (.check i))
  | .check i => some (s.await (if s.ring.Unread i then .move i else .release i false))
  | .move i =>
    some (((s.receive (s.ring.ring i).logline).setItem i
      ⟨(s.ring.ring i).written, .movedFrom⟩).await (.clear i))
  | .clear i =>
    some (((s.setItem i ⟨false, (s.ring.ring i).logline⟩).advance).await (.release i true))
  | .release i result => some ((s.setFlag i false).await (.outside (some result)))

variable [DecidableEq T]

/-- The thread `t` goes on as `p`. -/
def setProducer (s : System T α) (t : T) (p : Producer (Entry α)) : System T α :=
  { s with producers := Function.update s.producers t p }

/-- `m_writeIndex.fetch_add(1) % m_size` -/
def afterClaim (s : System T α) (t : T) (a : α) : System T α :=
  { s with
    ring := s.ring.claim.2
    producers := Function.update s.producers t
      (.pushing s.ring.claim.1 ⟨s.entries.length, a⟩ .acquire)
    entries := s.entries ++ [⟨s.entries.length, a⟩] }

/-- The operation `pc` of thread `t` on the item `i`. -/
def produce (s : System T α) (t : T) (i : ℕ) (e : Entry α) : Pc → System T α
  | .acquire =>
    if s.flags i then s else (s.setFlag i true).setProducer t (.pushing i e .move)
  | .move =>
    (s.setItem i ⟨(s.ring.ring i).written, .line e⟩).setProducer t (.pushing i e .mark)
  | .mark =>
    (s.setItem i ⟨true, (s.ring.ring i).logline⟩).setProducer t (.pushing i e .release)
  | .release => (s.setFlag i false).setProducer t .idle

/-- One operation of a producer or of the consumer; none if the call is not where it says. -/
def step (s : System T α) : Label T α → Option (System T α)
  | .push t a => match s.producers t with
    | .idle => some (s.afterClaim t a)
    | .pushing .. => none
  | .produce t => match s.producers t with
    | .idle => none
    | .pushing i e pc => some (s.produce t i e pc)
  | .tryPop => match s.consumer with
    | .outside _ => some (s.await (.acquire s.ring.readSlot))
    | _ => none
  | .consume => s.consume

end System

/-- Any number of producers and one consumer on a ring of `size` slots. -/
def machine (T α : Type) [DecidableEq T] (size : ℕ) : Machine (System T α) (Label T α) where
  init := .init size
  step := System.step

/-! ## The locks -/

/-- The item whose lock a producer holds. -/
def Producer.holds : Producer α → Option ℕ
  | .idle => none
  | .pushing _ _ .acquire => none
  | .pushing i _ _ => some i

/-- The item whose lock the consumer holds. -/
def Consumer.holds : Consumer → Option ℕ
  | .outside _ => none
  | .acquire _ => none
  | .check i => some i
  | .move i => some i
  | .clear i => some i
  | .release i _ => some i

/-- The item whose lock a thread holds, or the consumer. -/
def System.holds (s : System T α) : Option T → Option ℕ :=
  parties (fun t => (s.producers t).holds) s.consumer.holds

section Steps

variable [DecidableEq T] {s s' : System T α}

/-- What a step can do. -/
inductive Step (s : System T α) : Label T α → System T α → Prop
  | claim (t : T) (a : α) (ht : s.producers t = .idle) : Step s (.push t a) (s.afterClaim t a)
  | spin (t : T) (i : ℕ) (e : Entry α) (ht : s.producers t = .pushing i e .acquire)
      (hflag : s.flags i = true) : Step s (.produce t) s
  | acquire (t : T) (i : ℕ) (e : Entry α) (ht : s.producers t = .pushing i e .acquire)
      (hflag : s.flags i = false) :
      Step s (.produce t) ((s.setFlag i true).setProducer t (.pushing i e .move))
  | move (t : T) (i : ℕ) (e : Entry α) (ht : s.producers t = .pushing i e .move) :
      Step s (.produce t)
        ((s.setItem i ⟨(s.ring.ring i).written, .line e⟩).setProducer t (.pushing i e .mark))
  | mark (t : T) (i : ℕ) (e : Entry α) (ht : s.producers t = .pushing i e .mark) :
      Step s (.produce t)
        ((s.setItem i ⟨true, (s.ring.ring i).logline⟩).setProducer t (.pushing i e .release))
  | release (t : T) (i : ℕ) (e : Entry α) (ht : s.producers t = .pushing i e .release) :
      Step s (.produce t) ((s.setFlag i false).setProducer t .idle)
  | tryPop (r : Option Bool) (hc : s.consumer = .outside r) :
      Step s .tryPop (s.await (.acquire s.ring.readSlot))
  | wait (i : ℕ) (hc : s.consumer = .acquire i) (hflag : s.flags i = true) : Step s .consume s
  | lock (i : ℕ) (hc : s.consumer = .acquire i) (hflag : s.flags i = false) :
      Step s .consume ((s.setFlag i true).await (.check i))
  | found (i : ℕ) (hc : s.consumer = .check i) (hu : s.ring.Unread i) :
      Step s .consume (s.await (.move i))
  | empty (i : ℕ) (hc : s.consumer = .check i) (hu : ¬ s.ring.Unread i) :
      Step s .consume (s.await (.release i false))
  | moveOut (i : ℕ) (hc : s.consumer = .move i) :
      Step s .consume (((s.receive (s.ring.ring i).logline).setItem i
        ⟨(s.ring.ring i).written, .movedFrom⟩).await (.clear i))
  | clear (i : ℕ) (hc : s.consumer = .clear i) :
      Step s .consume
        (((s.setItem i ⟨false, (s.ring.ring i).logline⟩).advance).await (.release i true))
  | unlock (i : ℕ) (result : Bool) (hc : s.consumer = .release i result) :
      Step s .consume ((s.setFlag i false).await (.outside (some result)))

theorem Step.of_consume (h : s.consume = some s') : Step s .consume s' := by
  unfold System.consume at h
  cases hc : s.consumer with
  | outside r => simp [hc] at h
  | acquire i =>
    simp only [hc, Option.some.injEq] at h
    subst h
    cases hflag : s.flags i with
    | true => exact .wait i hc hflag
    | false => exact .lock i hc hflag
  | check i =>
    simp only [hc, Option.some.injEq] at h
    subst h
    by_cases hu : s.ring.Unread i
    · rw [if_pos hu]
      exact .found i hc hu
    · rw [if_neg hu]
      exact .empty i hc hu
  | move i =>
    simp only [hc, Option.some.injEq] at h
    exact h ▸ .moveOut i hc
  | clear i =>
    simp only [hc, Option.some.injEq] at h
    exact h ▸ .clear i hc
  | release i result =>
    simp only [hc, Option.some.injEq] at h
    exact h ▸ .unlock i result hc

theorem Step.of_step {l : Label T α} (h : s.step l = some s') : Step s l s' := by
  cases l with
  | push t a =>
    cases ht : s.producers t with
    | idle =>
      simp only [System.step, ht, Option.some.injEq] at h
      exact h ▸ .claim t a ht
    | pushing i e pc => simp [System.step, ht] at h
  | produce t =>
    cases ht : s.producers t with
    | idle => simp [System.step, ht] at h
    | pushing i e pc =>
      simp only [System.step, ht, Option.some.injEq] at h
      subst h
      cases pc with
      | acquire =>
        cases hflag : s.flags i with
        | true =>
          simp only [System.produce, hflag, if_true]
          exact .spin t i e ht hflag
        | false =>
          simp only [System.produce, hflag]
          exact .acquire t i e ht hflag
      | move => exact .move t i e ht
      | mark => exact .mark t i e ht
      | release => exact .release t i e ht
  | tryPop =>
    cases hc : s.consumer with
    | outside r =>
      simp only [System.step, hc, Option.some.injEq] at h
      exact h ▸ .tryPop r hc
    | _ => simp [System.step, hc] at h
  | consume => exact .of_consume h

end Steps

end Locked

end RingBuffer

end ZephyrLog
