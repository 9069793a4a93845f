import Mathlib.Data.List.Basic
import Mathlib.Logic.Function.Basic
import ZephyrLog.Lib.Transition

/-!
# A queue with tickets

What a buffer between many producers and one consumer is for.  A producer takes the next ticket for
its line and publishes the line later; the consumer takes the line of the next ticket once it is
published, and finds the queue empty while it is not, whatever lines are published behind it.  So
the lines are taken in the order of the tickets (`Valid`), and a queue whose lines are all published
is found empty only when all are taken.
-/

namespace ZephyrLog

/-- The lines by their tickets, which of them are published, and how many are taken. -/
structure TicketQueue (α : Type) where
  lines : List α
  published : ℕ → Bool
  taken : ℕ

namespace TicketQueue

/-- What producers and the consumer do to the queue. -/
inductive Event (α : Type) where
  /-- A producer takes the next ticket for its line. -/
  | claim (line : α)
  | publish (ticket : ℕ)
  | pop
  /-- The consumer finds no line. -/
  | empty
  deriving DecidableEq, Repr

variable {α : Type}

/-- The queue before the first claim. -/
def init : TicketQueue α := { lines := [], published := fun _ => false, taken := 0 }

/-- The queue after an event; none if the event cannot happen. -/
def step (q : TicketQueue α) : Event α → Option (TicketQueue α)
  | .claim line => some { q with lines := q.lines ++ [line] }
  | .publish n =>
    if n < q.lines.length ∧ q.published n = false then
      some { q with published := Function.update q.published n true }
    else none
  | .pop => if q.published q.taken then some { q with taken := q.taken + 1 } else none
  | .empty => if q.published q.taken then none else some q

/-- Any number of producers and one consumer. -/
def machine (α : Type) : Machine (TicketQueue α) (Event α) where
  init := .init
  step := TicketQueue.step

/-- The lines claimed in a run. -/
def claimed : List (Event α) → List α
  | [] => []
  | .claim line :: es => line :: claimed es
  | _ :: es => claimed es

/-- How many lines were taken in a run. -/
def popped : List (Event α) → ℕ
  | [] => 0
  | .pop :: es => popped es + 1
  | _ :: es => popped es

/-- Only lines that have a ticket are published, and only published ones are taken. -/
structure Valid (q : TicketQueue α) : Prop where
  claimed : ∀ n, q.published n = true → n < q.lines.length
  published : ∀ n < q.taken, q.published n = true

variable {q q' : TicketQueue α}

theorem Valid.init : Valid (init : TicketQueue α) where
  claimed := by intro n h; cases h
  published := by intro n h; cases h

theorem Valid.step (h : Valid q) {e : Event α} (hs : q.step e = some q') : Valid q' := by
  cases e with
  | claim line =>
    obtain rfl := Option.some.inj hs
    refine ⟨fun n hn => ?_, h.published⟩
    have hlt := h.claimed n hn
    simp only [List.length_append, List.length_singleton]
    omega
  | publish m =>
    obtain ⟨⟨hlt, -⟩, hs⟩ := Option.ite_none_right_eq_some.1 hs
    obtain rfl := Option.some.inj hs
    refine ⟨fun n hn => ?_, fun n hn => ?_⟩
    · by_cases hnm : n = m
      · rwa [hnm]
      · exact h.claimed n (by simpa [hnm] using hn)
    · by_cases hnm : n = m
      · simp [hnm]
      · simpa [hnm] using h.published n hn
  | pop =>
    obtain ⟨hpub, hs⟩ := Option.ite_none_right_eq_some.1 hs
    obtain rfl := Option.some.inj hs
    refine ⟨h.claimed, fun n hn => ?_⟩
    rcases Nat.lt_succ_iff_lt_or_eq.1 hn with hlt | rfl
    · exact h.published n hlt
    · exact hpub
  | empty =>
    obtain ⟨-, hs⟩ := Option.ite_none_left_eq_some.1 hs
    exact Option.some.inj hs ▸ h

theorem Valid.exec (h : Valid q) {es : List (Event α)} (hs : (machine α).exec q es = some q') :
    Valid q' := by
  induction es generalizing q with
  | nil => exact Option.some.inj hs ▸ h
  | cons e es ih =>
    obtain ⟨q₁, hq₁, hs⟩ := Option.bind_eq_some_iff.1 hs
    exact ih (h.step hq₁) hs

/-- No more lines are taken than were claimed. -/
theorem Valid.taken_le (h : Valid q) : q.taken ≤ q.lines.length := by
  rcases Nat.eq_zero_or_pos q.taken with hzero | hpos
  · omega
  · have := h.claimed (q.taken - 1) (h.published _ (by omega))
    omega

/-- A queue whose lines are all published is found empty exactly when all are taken. -/
theorem Valid.empty_iff (h : Valid q) (hall : ∀ n < q.lines.length, q.published n = true) :
    (q.step .empty).isSome ↔ q.taken = q.lines.length := by
  have hle := h.taken_le
  constructor
  · intro hempty
    by_contra hne
    have hpub := hall q.taken (by omega)
    rw [TicketQueue.step, if_pos hpub] at hempty
    cases hempty
  · intro htaken
    have hpub : ¬ q.published q.taken = true := by
      intro hpub
      have := h.claimed _ hpub
      omega
    rw [TicketQueue.step, if_neg hpub]
    rfl

/-- What a run has claimed and taken. -/
theorem exec_lines {es : List (Event α)} (hs : (machine α).exec q es = some q') :
    q'.lines = q.lines ++ claimed es ∧ q'.taken = q.taken + popped es := by
  induction es generalizing q with
  | nil =>
    cases hs
    simp [claimed, popped]
  | cons e es ih =>
    obtain ⟨q₁, hq₁, hs⟩ := Option.bind_eq_some_iff.1 hs
    obtain ⟨hlines, htaken⟩ := ih hs
    cases e with
    | claim line =>
      obtain rfl := Option.some.inj hq₁
      exact ⟨by rw [hlines, claimed]; simp, htaken⟩
    | publish m =>
      obtain ⟨-, hq₁⟩ := Option.ite_none_right_eq_some.1 hq₁
      obtain rfl := Option.some.inj hq₁
      exact ⟨hlines, htaken⟩
    | pop =>
      obtain ⟨-, hq₁⟩ := Option.ite_none_right_eq_some.1 hq₁
      obtain rfl := Option.some.inj hq₁
      refine ⟨hlines, htaken.trans ?_⟩
      show q.taken + 1 + popped es = q.taken + (popped es + 1)
      omega
    | empty =>
      obtain ⟨-, hq₁⟩ := Option.ite_none_left_eq_some.1 hq₁
      obtain rfl := Option.some.inj hq₁
      exact ⟨hlines, htaken⟩

end TicketQueue

end ZephyrLog
