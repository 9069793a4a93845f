import ZephyrLog.AsyncLogger.Safe.Shutdown
import ZephyrLog.Logging.Model

/-!
# The steps of one logger

What a step of a logger can change, as far as the threads that share it can see: who is inside
`add`, how far the destructor is, and, for a Safe logger, which calls of `add` have begun.
-/

namespace ZephyrLog

namespace QueueBuffer

variable {T α : Type} [DecidableEq T] {s s' : System T α} {l : Label T α} {t u : T}

theorem producers_of_ne (hs : Step s l s') (hl : l = .produce u ∨ l = .badAlloc u) (ht : t ≠ u) :
    s'.producers t = s.producers t := by
  cases hs <;> first
    | rfl
    | (obtain h | h := hl <;> cases h <;> exact Function.update_of_ne ht _ _)

/-- Only a call of `push` brings a thread into `push`. -/
theorem idle_of_step (hs : s.step l = some s') (hl : ∀ a, l ≠ .push t a)
    (ht : s.producers t = .idle) : s'.producers t = .idle := by
  cases l with
  | push u a =>
    have hu : t ≠ u := by
      rintro rfl
      exact hl a rfl
    cases Step.of_step hs with
    | begin _ _ hidle => exact (Function.update_of_ne hu _ _).trans ht
  | produce u =>
    by_cases hu : t = u
    · subst hu
      simp [System.step, ht] at hs
    · rw [producers_of_ne (Step.of_step hs) (.inl rfl) hu, ht]
  | badAlloc u =>
    by_cases hu : t = u
    · subst hu
      simp [System.step, ht] at hs
    · rw [producers_of_ne (Step.of_step hs) (.inr rfl) hu, ht]
  | tryPop => rw [(producers_of_consume (Step.of_step hs) (.inl rfl)).1, ht]
  | consume => rw [(producers_of_consume (Step.of_step hs) (.inr rfl)).1, ht]

/-- Only a call of `push` begins one. -/
theorem begun_of_step (hs : s.step l = some s') (hl : ∀ t a, l ≠ .push t a) :
    s'.begun = s.begun := by
  cases Step.of_step hs with
  | begin t a ht => exact absurd rfl (hl t a)
  | move b c hc hcell =>
    unfold System.advance
    split
    · rfl
    · rfl
  | _ => rfl

theorem begun_of_push {a : α} (hs : s.step (.push t a) = some s') :
    s'.begun = s.begun ++ [⟨t, s.begun.length, a⟩] := by
  cases Step.of_step hs with
  | begin => rfl

theorem numbers_of_reachable {guard : System T α → Label T α → Prop}
    (h : (machine T α).Reachable guard s) :
    s.begun.map Push.number = List.range s.begun.length := by
  refine h.invariant (P := fun s => s.begun.map Push.number = List.range s.begun.length) rfl ?_
  intro s l s' ih _ hs
  by_cases hpush : ∃ t a, l = .push t a
  · obtain ⟨t, a, rfl⟩ := hpush
    rw [begun_of_push hs, List.map_append, ih, List.length_append]
    exact List.range_succ.symm
  · simp only [not_exists] at hpush
    rw [begun_of_step hs hpush, ih]

theorem begun_nodup {guard : System T α → Label T α → Prop}
    (h : (machine T α).Reachable guard s) : s.begun.Nodup := by
  apply List.Nodup.of_map Push.number
  rw [numbers_of_reachable h]
  exact List.nodup_range

end QueueBuffer

namespace AsyncLogger

namespace Safe

variable {T α : Type} [DecidableEq T] {s s' : System T α} {l : Label T α}

/-- A step that is no call of `add` leaves the queue as it is or makes a step of it that is no call
of `push`. -/
theorem queue_of_step (hs : s.step l = some s') (hl : ∀ t a, l ≠ .add t a) :
    s'.buffer = s.buffer ∨
      ∃ l', (∀ t a, l' ≠ .push t a) ∧ s.buffer.step l' = some s'.buffer := by
  cases Step.of_step hs with
  | add t a b hb => exact absurd rfl (hl t a)
  | produce t b hb => exact .inr ⟨.produce t, by simp, hb⟩
  | badAlloc t b hb => exact .inr ⟨.badAlloc t, by simp, hb⟩
  | tryPop loop b hw hb => exact .inr ⟨.tryPop, by simp, hb⟩
  | inside loop b hw hb => exact .inr ⟨.consume, by simp, hb⟩
  | _ => exact .inl rfl

/-- A call of `add` is one of `push`. -/
theorem queue_of_add {t : T} {a : α} (hs : s.step (.add t a) = some s') :
    s.buffer.step (.push t a) = some s'.buffer := by
  cases Step.of_step hs with
  | add _ _ b hb => exact hb

theorem idle_of_step (hs : s.step l = some s') {t : T} (hl : ∀ a, l ≠ .add t a)
    (ht : s.buffer.producers t = .idle) : s'.buffer.producers t = .idle := by
  by_cases hadd : ∃ u a, l = .add u a
  · obtain ⟨u, a, rfl⟩ := hadd
    apply QueueBuffer.idle_of_step (queue_of_add hs) _ ht
    intro a' ha
    cases ha
    exact hl a rfl
  · simp only [not_exists] at hadd
    rcases queue_of_step hs hadd with hb | ⟨l', hl', hb⟩
    · rwa [hb]
    · exact QueueBuffer.idle_of_step hb (hl' t) ht

theorem begun_of_step (hs : s.step l = some s') (hl : ∀ t a, l ≠ .add t a) :
    s'.buffer.begun = s.buffer.begun := by
  rcases queue_of_step hs hl with hb | ⟨l', hl', hb⟩
  · rw [hb]
  · exact QueueBuffer.begun_of_step hb hl'

theorem begun_of_add {t : T} {a : α} (hs : s.step (.add t a) = some s') :
    s'.buffer.begun = s.buffer.begun ++ [⟨t, s.buffer.begun.length, a⟩] :=
  QueueBuffer.begun_of_push (queue_of_add hs)

end Safe

end AsyncLogger

namespace Logging

namespace Impl

variable {T : Type}

/-- The destructor has begun. -/
def Ending (m : Impl T) : Prop :=
  m.owner = .destroying ∨ m.owner = .joining ∨ m.owner = .joined

theorem not_ending_new (bufferSize : Option RingSize) : ¬ (new T bufferSize).Ending := by
  cases bufferSize <;> simp [Ending, new, owner, AsyncLogger.new]

theorem not_adding_new (bufferSize : Option RingSize) (t : T) :
    ¬ (new T bufferSize).Adding t := by
  cases bufferSize with
  | none => simp [Adding, new, AsyncLogger.new, QueueBuffer.System.init]
  | some n => simp [Adding, new, RingBuffer.System.init]

variable {m m' : Impl T}

theorem owner_of_not_ending (h : ¬ m.Ending) :
    m.owner = .constructing ∨ m.owner = .running := by
  cases ho : m.owner <;> simp [Ending, ho] at h ⊢

variable [DecidableEq T] {l : AsyncLogger.Label T Text} {t : T}

theorem safe_of_step {a' : AsyncLogger.Safe.System T Text} (h : m.step l = some (.safe a')) :
    ∃ a, m = .safe a ∧ a.step l = some a' := by
  cases m with
  | safe a =>
    obtain ⟨a'', ha, heq⟩ := Option.map_eq_some_iff.1 h
    cases heq
    exact ⟨a, rfl, ha⟩
  | quick q =>
    exfalso
    cases l with
    | add t line | produce t =>
      obtain ⟨r, -, heq⟩ := Option.map_eq_some_iff.1 h
      cases heq
    | badAlloc t => cases h
    | work =>
      obtain ⟨-, h⟩ := Option.ite_none_left_eq_some.1 h
      cases hhand : q.hand <;> simp [hhand] at h
    | own =>
      cases ho : q.owner <;> simp [step, ho] at h
    | destroy =>
      obtain ⟨-, h⟩ := Option.ite_none_right_eq_some.1 h
      cases h

/-- Only a call of `add` brings a thread into `add`. -/
theorem not_adding_of_step (h : m.step l = some m') (hl : ∀ line, l ≠ .add t line)
    (ht : ¬ m.Adding t) : ¬ m'.Adding t := by
  cases m with
  | safe a =>
    obtain ⟨a', ha, rfl⟩ := Option.map_eq_some_iff.1 h
    simp only [Adding, not_not] at ht ⊢
    exact AsyncLogger.Safe.idle_of_step ha hl ht
  | quick q =>
    simp only [Adding, not_not] at ht
    cases l with
    | add u line =>
      obtain ⟨r, hr, rfl⟩ := Option.map_eq_some_iff.1 h
      have hu : t ≠ u := by
        rintro rfl
        exact hl line rfl
      simp only [Adding, not_not]
      rcases RingBuffer.step_cases hr with ⟨_, _, hlabel, -, rfl⟩ | ⟨_, _, _, hlabel, -⟩ |
        ⟨hlabel, -⟩
      · cases hlabel
        exact (Function.update_of_ne hu _ _).trans ht
      · cases hlabel
      · cases hlabel
    | produce u =>
      obtain ⟨r, hr, rfl⟩ := Option.map_eq_some_iff.1 h
      simp only [Adding, not_not]
      rcases RingBuffer.step_cases hr with ⟨_, _, hlabel, -⟩ | ⟨_, _, _, hlabel, -, rfl⟩ |
        ⟨hlabel, -⟩
      · cases hlabel
      · cases hlabel
        by_cases hu : t = u
        · subst hu
          exact Function.update_self ..
        · exact (Function.update_of_ne hu _ _).trans ht
      · cases hlabel
    | badAlloc u => cases h
    | work =>
      obtain ⟨-, h⟩ := Option.ite_none_left_eq_some.1 h
      cases hhand : q.hand with
      | none =>
        simp only [hhand, Option.some.injEq] at h
        subst h
        simpa [Adding, RingBuffer.System.afterPop] using ht
      | some c =>
        simp only [hhand, Option.some.injEq] at h
        subst h
        simpa [Adding] using ht
    | own =>
      cases ho : q.owner <;> simp [step, ho] at h
      · subst h
        simpa [Adding] using ht
      · subst h
        simpa [Adding] using ht
      · obtain ⟨-, rfl⟩ := h
        simpa [Adding] using ht
    | destroy =>
      obtain ⟨-, h⟩ := Option.ite_none_right_eq_some.1 h
      cases h
      simpa [Adding] using ht

/-- The owner's thread alone moves the owner. -/
theorem owner_of_step (h : m.step l = some m') (hown : l ≠ .own) (hdestroy : l ≠ .destroy) :
    m'.owner = m.owner := by
  cases m with
  | safe a =>
    obtain ⟨a', ha, rfl⟩ := Option.map_eq_some_iff.1 h
    exact AsyncLogger.owner_of_step ha hown hdestroy
  | quick q =>
    cases l with
    | add u line | produce u =>
      obtain ⟨r, -, rfl⟩ := Option.map_eq_some_iff.1 h
      rfl
    | badAlloc u => cases h
    | work =>
      obtain ⟨-, h⟩ := Option.ite_none_left_eq_some.1 h
      cases hhand : q.hand <;> simp only [hhand, Option.some.injEq] at h <;> subst h <;> rfl
    | own => exact absurd rfl hown
    | destroy => exact absurd rfl hdestroy

theorem own_cases (h : m.step .own = some m') :
    m.owner = .constructing ∧ m'.owner = .running ∨
      m.owner = .destroying ∧ m'.owner = .joining ∨ m.owner = .joining ∧ m'.owner = .joined := by
  cases m with
  | safe a =>
    obtain ⟨a', ha, rfl⟩ := Option.map_eq_some_iff.1 h
    cases AsyncLogger.Step.of_step ha with
    | ready ho => exact .inl ⟨ho, rfl⟩
    | shutDown ho => exact .inr (.inl ⟨ho, rfl⟩)
    | join ho hw => exact .inr (.inr ⟨ho, rfl⟩)
  | quick q =>
    cases ho : q.owner <;> simp [step, ho] at h
    · exact .inl ⟨ho, h ▸ rfl⟩
    · exact .inr (.inl ⟨ho, h ▸ rfl⟩)
    · exact .inr (.inr ⟨ho, h.2 ▸ rfl⟩)

theorem owner_of_destroy (h : m.step .destroy = some m') :
    m.owner = .running ∧ m'.owner = .destroying := by
  cases m with
  | safe a =>
    obtain ⟨a', ha, rfl⟩ := Option.map_eq_some_iff.1 h
    cases AsyncLogger.Step.of_step ha with
    | destroy ho => exact ⟨ho, rfl⟩
  | quick q =>
    obtain ⟨ho, h⟩ := Option.ite_none_right_eq_some.1 h
    exact ⟨ho, Option.some.inj h ▸ rfl⟩

/-- The destructor goes on once it has begun, and only `destroy` begins it. -/
theorem ending_of_step (h : m.step l = some m') (hl : l ≠ .destroy) :
    m'.Ending ↔ m.Ending := by
  unfold Ending
  by_cases hown : l = .own
  · subst hown
    rcases own_cases h with ⟨ho, ho'⟩ | ⟨ho, ho'⟩ | ⟨ho, ho'⟩ <;> simp [ho, ho']
  · rw [owner_of_step h hown hl]

/-- A destructor that has ended stays so. -/
theorem joined_of_step (h : m.step l = some m') (ho : m.owner = .joined) : m'.owner = .joined := by
  by_cases hown : l = .own
  · subst hown
    rcases own_cases h with ⟨hold, -⟩ | ⟨hold, -⟩ | ⟨hold, -⟩ <;> simp [hold] at ho
  · by_cases hdestroy : l = .destroy
    · subst hdestroy
      simp [(owner_of_destroy h).1] at ho
    · rw [owner_of_step h hown hdestroy, ho]

end Impl

end Logging

end ZephyrLog
