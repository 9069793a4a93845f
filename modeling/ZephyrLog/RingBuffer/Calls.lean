import Mathlib.Data.List.Induction
import ZephyrLog.RingBuffer.Tickets

/-!
# Whole calls on the ring

A run in which no `push` is interrupted is a list of calls.  `run N calls` is the state it ends in,
`run_reachable` embeds it in the step machine, and `popN` is the consumer's loop of `tryPop` calls.
The order in which the consumer visits slots is `visit`.
-/

namespace ZephyrLog

namespace RingBuffer

variable {α T : Type} {N : ℕ}

/-! ## The consumer's loop -/

/-- `n` calls of `tryPop`. -/
def popN : ℕ → RingBuffer α → RingBuffer α
  | 0, r => r
  | n + 1, r => popN n r.tryPop.2

/-- However often `tryPop` is called, when it returns `false` no slot holds an unread line. -/
def DrainsFully (r : RingBuffer α) : Prop :=
  ∀ n, (r.popN n).tryPop.1 = none → ∀ i, ¬ (r.popN n).Unread i

/-- The slot that `tryPop` looks at after `j` successful calls. -/
def visit (r : RingBuffer α) (j : ℕ) : ℕ := (r.readIndex + BitVec.ofNat 32 j).toNat % r.size

theorem visit_zero (r : RingBuffer α) : r.visit 0 = r.readSlot := by
  simp [visit, readSlot]

theorem visit_advance (r : RingBuffer α) : r.advance.visit = fun j => r.visit (j + 1) := by
  funext j
  simp only [visit, advance, BitVec.ofNat_add]
  rw [BitVec.add_assoc, BitVec.add_comm (1 : BitVec 32)]
  rfl

@[simp] theorem visit_push (r : RingBuffer α) (a : α) : (r.push a).visit = r.visit := rfl

theorem DrainsFully.advance {r : RingBuffer α} (h : r.DrainsFully) (hu : r.Unread r.readSlot) :
    r.advance.DrainsFully := by
  intro n
  have := h (n + 1)
  rwa [popN, tryPop_of_unread hu] at this

theorem popN_of_not_unread {r : RingBuffer α} (h : ¬ r.Unread r.readSlot) (n : ℕ) :
    r.popN n = r := by
  induction n with
  | zero => rfl
  | succ n ih => rw [popN, tryPop_of_not_unread h, ih]

theorem popN_succ_of_unread {r : RingBuffer α} (h : r.Unread r.readSlot) (n : ℕ) :
    r.popN (n + 1) = r.advance.popN n := by
  rw [popN, tryPop_of_unread h]

/-! ## Runs of whole calls -/

/-- A call that runs without interruption. -/
inductive Call (T α : Type) where
  | push (t : T) (line : α)
  | tryPop

/-- The atomic steps of a call. -/
def Call.labels : Call T α → List (Label T α)
  | .push t a => [.claim t a, .store t]
  | .tryPop => [.tryPop]

variable [DecidableEq T]

/-- The effect of an uninterrupted call of a thread that is outside `push`. -/
def System.call (s : System T α) : Call T α → System T α
  | .push t a => (s.afterClaim t a).afterStore t s.ring.writeSlot ⟨s.claims.length, a⟩
  | .tryPop => s.afterPop

/-- The state after a list of calls on a fresh ring of `N` slots. -/
def run (N : ℕ) (calls : List (Call T α)) : System T α := calls.foldl System.call (.init N)

@[simp] theorem run_append (N : ℕ) (calls calls' : List (Call T α)) :
    run N (calls ++ calls') = calls'.foldl System.call (run N calls) := List.foldl_append ..

/-- The ring after a `push` call is the ring `RingBuffer::push` leaves. -/
theorem ring_call_push (s : System T α) (t : T) (a : α) :
    (s.call (.push t a)).ring = s.ring.push ⟨s.claims.length, a⟩ := rfl

theorem noPushInFlight_call {s : System T α} (h : s.NoPushInFlight) (c : Call T α) :
    (s.call c).NoPushInFlight := by
  cases c with
  | push t a =>
    intro t'
    by_cases ht : t' = t
    · simp [System.call, System.afterStore, ht]
    · simpa [System.call, System.afterStore, System.afterClaim, ht] using h t'
  | tryPop => exact h

/-- A call is the run of its atomic steps. -/
theorem exec_labels {s : System T α} (h : s.NoPushInFlight) (c : Call T α) :
    (machine T α N).exec s c.labels = some (s.call c) := by
  cases c with
  | push t a => simp [Call.labels, Machine.exec, machine, System.step, h t, System.afterClaim,
      System.call, claim]
  | tryPop => rfl

theorem run_noPushInFlight (N : ℕ) (calls : List (Call T α)) : (run N calls).NoPushInFlight := by
  induction calls using List.reverseRecOn with
  | nil => exact fun t => rfl
  | append_singleton calls c ih =>
    rw [run_append]
    exact noPushInFlight_call ih c

/-- A run of calls is a run of the step machine. -/
theorem run_reachable (N : ℕ) (calls : List (Call T α)) :
    (machine T α N).Reachable Machine.anyStep (run N calls) := by
  induction calls using List.reverseRecOn with
  | nil => exact .refl
  | append_singleton calls c ih =>
    rw [run_append]
    exact ih.trans (.of_exec _ (fun _ _ _ => trivial) (exec_labels (run_noPushInFlight N calls) c))

end RingBuffer

end ZephyrLog
