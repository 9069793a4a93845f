import Mathlib.Logic.Function.Basic
import Mathlib.Data.List.Basic
import ZephyrLog.Lib.Transition
import ZephyrLog.BufferBase

/-!
# The ring buffer of the Quick logger

`RingBuffer` is the class of the same name: a fixed array of slots with a 32-bit write counter that
producers advance with `fetch_add` and a 32-bit read counter that only the consumer touches.  A
`push` is two atomic steps, `claim` and `store`; a `tryPop` is one, its slot's critical section.

`System` runs any number of producers and one consumer on one ring.  Its last four fields are
history: no step reads them.
-/

namespace ZephyrLog

/-- A line together with the number of the claim that brought it, which the code cannot see. -/
structure Entry (α : Type) where
  ticket : ℕ
  line : α
  deriving DecidableEq, Repr

/-- `RingBuffer::Item`; its `flag` makes each critical section one step. -/
structure Item (α : Type) where
  written : Bool
  logline : Cell α
  deriving DecidableEq, Repr

/-- `RingBuffer`: its members. -/
structure RingBuffer (α : Type) where
  size : ℕ
  ring : ℕ → Item α
  writeIndex : BitVec 32
  readIndex : BitVec 32

namespace RingBuffer

variable {α T : Type}

/-- The constructor: every slot gets `Item()`, an unwritten placeholder line. -/
def new (size : ℕ) : RingBuffer α :=
  { size, ring := fun _ => ⟨false, .placeholder⟩, writeIndex := 0, readIndex := 0 }

/-- The slot index `push` obtains from `m_writeIndex.fetch_add(1) % m_size`. -/
def writeSlot (r : RingBuffer α) : ℕ := r.writeIndex.toNat % r.size

/-- The slot index `tryPop` obtains from `m_readIndex % m_size`. -/
def readSlot (r : RingBuffer α) : ℕ := r.readIndex.toNat % r.size

/-- First atomic step of `push`: claim an index. -/
def claim (r : RingBuffer α) : ℕ × RingBuffer α :=
  (r.writeSlot, { r with writeIndex := r.writeIndex + 1 })

/-- Second atomic step of `push`: the critical section of the claimed slot. -/
def store (r : RingBuffer α) (index : ℕ) (logline : α) : RingBuffer α :=
  { r with ring := Function.update r.ring index ⟨true, .line logline⟩ }

/-- `RingBuffer::push`, run without interruption. -/
def push (r : RingBuffer α) (logline : α) : RingBuffer α := r.claim.2.store r.claim.1 logline

/-- The ring after a successful `tryPop`: the line is moved out, the slot cleared. -/
def advance (r : RingBuffer α) : RingBuffer α :=
  { r with
    ring := Function.update r.ring r.readSlot ⟨false, .movedFrom⟩
    readIndex := r.readIndex + 1 }

/-- `RingBuffer::tryPop`: the line moved into the caller's `logline`, or `none` for `false`. -/
def tryPop (r : RingBuffer α) : Option (Cell α) × RingBuffer α :=
  if (r.ring r.readSlot).written then (some (r.ring r.readSlot).logline, r.advance) else (none, r)

/-- The slot holds a line that `tryPop` has not returned: `written == 1`. -/
def Unread (r : RingBuffer α) (i : ℕ) : Prop := (r.ring i).written = true

instance (r : RingBuffer α) (i : ℕ) : Decidable (r.Unread i) :=
  inferInstanceAs (Decidable ((r.ring i).written = true))

@[simp] theorem not_unread_new (n i : ℕ) : ¬ (new n : RingBuffer α).Unread i := by
  simp [new, Unread]

theorem unread_store (r : RingBuffer α) (i j : ℕ) (a : α) :
    (r.store i a).Unread j ↔ j = i ∨ r.Unread j := by
  by_cases h : j = i <;> simp [store, Unread, h]

theorem unread_push (r : RingBuffer α) (j : ℕ) (a : α) :
    (r.push a).Unread j ↔ j = r.writeSlot ∨ r.Unread j :=
  unread_store r.claim.2 r.writeSlot j a

theorem unread_advance (r : RingBuffer α) (j : ℕ) :
    r.advance.Unread j ↔ j ≠ r.readSlot ∧ r.Unread j := by
  by_cases h : j = r.readSlot <;> simp [advance, Unread, h]

theorem ring_store_of_ne (r : RingBuffer α) {i j : ℕ} (a : α) (h : j ≠ i) :
    (r.store i a).ring j = r.ring j := Function.update_of_ne h _ _

theorem ring_store_self (r : RingBuffer α) (i : ℕ) (a : α) :
    (r.store i a).ring i = ⟨true, .line a⟩ := Function.update_self _ _ _

theorem ring_push_of_ne (r : RingBuffer α) {j : ℕ} (a : α) (h : j ≠ r.writeSlot) :
    (r.push a).ring j = r.ring j := Function.update_of_ne h _ _

theorem ring_push_self (r : RingBuffer α) (a : α) :
    (r.push a).ring r.writeSlot = ⟨true, .line a⟩ := Function.update_self _ _ _

theorem ring_advance_of_ne (r : RingBuffer α) {j : ℕ} (h : j ≠ r.readSlot) :
    r.advance.ring j = r.ring j := Function.update_of_ne h _ _

theorem tryPop_of_unread {r : RingBuffer α} (h : r.Unread r.readSlot) :
    r.tryPop = (some (r.ring r.readSlot).logline, r.advance) := if_pos h

theorem tryPop_of_not_unread {r : RingBuffer α} (h : ¬ r.Unread r.readSlot) :
    r.tryPop = (none, r) := if_neg h

/-- `tryPop` returns `false` exactly when the slot it looks at holds no unread line. -/
theorem tryPop_eq_none_iff (r : RingBuffer α) : r.tryPop.1 = none ↔ ¬ r.Unread r.readSlot := by
  by_cases h : r.Unread r.readSlot
  · simp [tryPop_of_unread h, h]
  · simp [tryPop_of_not_unread h, h]

/-! ## Producers and the consumer -/

/-- A producer thread: outside `push`, or between its `claim` and its `store`. -/
inductive Producer (α : Type) where
  | idle
  | storing (index : ℕ) (logline : α)
  deriving DecidableEq, Repr

/-- A claim in the order of the `fetch_add`s, with the pushes that had returned before it. -/
structure Claim (T α : Type) where
  thread : T
  line : α
  returned : List (Entry α)

/-- The ring with its producers, and the history of its claims, stores and pops. -/
structure System (T α : Type) where
  ring : RingBuffer (Entry α)
  producers : T → Producer (Entry α)
  claims : List (Claim T α)
  stored : List (Entry α)
  popped : List (Cell (Entry α))
  /-- Unread contents replaced by a store, each with the line stored over it. -/
  overwritten : List (Cell (Entry α) × Entry α)

/-- What a producer or the consumer does next. -/
inductive Label (T α : Type) where
  | claim (t : T) (line : α)
  | store (t : T)
  | tryPop

namespace System

/-- The ring as constructed, with no call in flight. -/
def init (size : ℕ) : System T α :=
  { ring := .new size, producers := fun _ => .idle, claims := [], stored := [], popped := [],
    overwritten := [] }

variable [DecidableEq T]

/-- The thread `t` has claimed an index for its line. -/
def afterClaim (s : System T α) (t : T) (a : α) : System T α :=
  { s with
    ring := s.ring.claim.2
    producers := Function.update s.producers t (.storing s.ring.claim.1 ⟨s.claims.length, a⟩)
    claims := s.claims ++ [⟨t, a, s.stored⟩] }

/-- The thread `t` has stored its line into the slot `index`. -/
def afterStore (s : System T α) (t : T) (index : ℕ) (e : Entry α) : System T α :=
  { s with
    ring := s.ring.store index e
    producers := Function.update s.producers t .idle
    stored := s.stored ++ [e]
    overwritten := if s.ring.Unread index then s.overwritten ++ [((s.ring.ring index).logline, e)]
      else s.overwritten }

/-- The consumer has called `tryPop`. -/
def afterPop (s : System T α) : System T α :=
  { s with
    ring := s.ring.tryPop.2
    popped := s.popped ++ s.ring.tryPop.1.toList }

/-- One atomic step; none if the producer is not where it says. -/
def step (s : System T α) : Label T α → Option (System T α)
  | .claim t a => match s.producers t with
    | .idle => some (s.afterClaim t a)
    | .storing .. => none
  | .store t => match s.producers t with
    | .storing index e => some (s.afterStore t index e)
    | .idle => none
  | .tryPop => some s.afterPop

end System

/-- Any number of producers and one consumer on a ring of `size` slots. -/
def machine (T α : Type) [DecidableEq T] (size : ℕ) : Machine (System T α) (Label T α) where
  init := .init size
  step := System.step

/-- No producer is between its `claim` and its `store`. -/
def System.NoPushInFlight (s : System T α) : Prop := ∀ t, s.producers t = .idle

section Steps

variable {s s' : System T α}

theorem afterPop_of_unread (h : s.ring.Unread s.ring.readSlot) :
    s.afterPop = { s with
      ring := s.ring.advance
      popped := s.popped ++ [(s.ring.ring s.ring.readSlot).logline] } := by
  simp [System.afterPop, tryPop_of_unread h]

theorem afterPop_of_not_unread (h : ¬ s.ring.Unread s.ring.readSlot) : s.afterPop = s := by
  simp [System.afterPop, tryPop_of_not_unread h]

variable [DecidableEq T]

/-- What a step can do. -/
theorem step_cases {l : Label T α} (h : s.step l = some s') :
    (∃ t a, l = .claim t a ∧ s.producers t = .idle ∧ s' = s.afterClaim t a) ∨
    (∃ t i e, l = .store t ∧ s.producers t = .storing i e ∧ s' = s.afterStore t i e) ∨
    (l = .tryPop ∧ s' = s.afterPop) := by
  cases l with
  | claim t a =>
    cases ht : s.producers t with
    | idle =>
      simp only [System.step, ht, Option.some.injEq] at h
      exact .inl ⟨t, a, rfl, ht, h.symm⟩
    | storing i e => simp [System.step, ht] at h
  | store t =>
    cases ht : s.producers t with
    | idle => simp [System.step, ht] at h
    | storing i e =>
      simp only [System.step, ht, Option.some.injEq] at h
      exact .inr (.inl ⟨t, i, e, rfl, ht, h.symm⟩)
  | tryPop => exact .inr (.inr ⟨rfl, (Option.some.inj h).symm⟩)

/-- A producer between `claim` and `store` after a claim is the claiming one or was so before. -/
theorem storing_afterClaim {t t' : T} {a : α} {i : ℕ} {e : Entry α}
    (h : (s.afterClaim t a).producers t' = .storing i e) :
    (t' = t ∧ i = s.ring.writeSlot ∧ e = ⟨s.claims.length, a⟩) ∨
      (t' ≠ t ∧ s.producers t' = .storing i e) := by
  by_cases ht : t' = t
  · subst ht
    simp only [System.afterClaim, Function.update_self, Producer.storing.injEq] at h
    exact .inl ⟨rfl, h.1.symm, h.2.symm⟩
  · simp only [System.afterClaim, Function.update_of_ne ht] at h
    exact .inr ⟨ht, h⟩

theorem storing_afterStore {t t' : T} {i j : ℕ} {e f : Entry α}
    (h : (s.afterStore t i e).producers t' = .storing j f) :
    t' ≠ t ∧ s.producers t' = .storing j f := by
  by_cases ht : t' = t
  · subst ht
    simp [System.afterStore] at h
  · simp only [System.afterStore, Function.update_of_ne ht] at h
    exact ⟨ht, h⟩

end Steps

end RingBuffer

end ZephyrLog
