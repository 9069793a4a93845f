import ZephyrLog.AsyncLogger.Model

/-!
# The steps of the logger

`Step` lists what an operation of a producer, of the worker or of the owner can do, guards included;
`Step.of_step` is the inversion of `step`.
-/

namespace ZephyrLog

namespace AsyncLogger

variable {B T α L : Type} [BufferBase B T α L]

/-- What a step can do. -/
inductive Step (s : AsyncLogger B L) : Label T α → AsyncLogger B L → Prop
  | add (t : T) (a : α) (b : B) (hb : BufferBase.step s.buffer (.push t a) = some b) :
    Step s (.add t a) { s with buffer := b }
  | produce (t : T) (b : B) (hb : BufferBase.step s.buffer (.produce t) = some b) :
    Step s (.produce t) { s with buffer := b }
  | badAlloc (t : T) (b : B) (hb : BufferBase.step s.buffer (.badAlloc t) = some b) :
    Step s (.badAlloc t) { s with buffer := b }
  | wait (hw : s.worker = .waitInit) (hinit : s.state = .init) : Step s .work s
  | start (hw : s.worker = .waitInit) (hinit : s.state ≠ .init) :
    Step s .work { s with worker := .loadState }
  | loadState (hw : s.worker = .loadState) :
    Step s .work { s with worker := .tryPop (if s.state = .ready then .ready else .drain) }
  | tryPop (loop : Loop) (b : B) (hw : s.worker = .tryPop loop)
      (hb : BufferBase.step s.buffer .tryPop = some b) :
    Step s .work { s with buffer := b, worker := .inside loop }
  | inside (loop : Loop) (b : B) (hw : s.worker = .inside loop)
      (hb : BufferBase.step s.buffer .consume = some b) :
    Step s .work { s with buffer := b, worker := loop.resume (BufferBase.result b) }
  | write (loop : Loop) (hw : s.worker = .write loop) :
    Step s .work
      { s with written := s.written ++ [BufferBase.logline s.buffer], worker := loop.again }
  | ready (ho : s.owner = .constructing) : Step s .own { s with state := .ready, owner := .running }
  | shutDown (ho : s.owner = .destroying) :
    Step s .own { s with state := .shutdown, owner := .joining }
  | join (ho : s.owner = .joining) (hw : s.worker = .ended) :
    Step s .own { s with owner := .joined }
  | destroy (ho : s.owner = .running) : Step s .destroy { s with owner := .destroying }

variable {s s' : AsyncLogger B L} {op : BufferBase.Op T α} {l : Label T α}

theorem onBuffer_eq_some (h : s.onBuffer op = some s') :
    ∃ b, BufferBase.step s.buffer op = some b ∧ s' = { s with buffer := b } := by
  obtain ⟨b, hb, rfl⟩ := Option.map_eq_some_iff.1 h
  exact ⟨b, hb, rfl⟩

namespace Step

theorem of_work (h : s.work = some s') : Step s .work s' := by
  unfold work at h
  cases hw : s.worker with
  | waitInit =>
    by_cases hinit : s.state = .init
    · simp only [hw, hinit, if_true, Option.some.injEq] at h
      exact h ▸ .wait hw hinit
    · simp only [hw, hinit, if_false, Option.some.injEq] at h
      exact h ▸ .start hw hinit
  | loadState =>
    simp only [hw, Option.some.injEq] at h
    exact h ▸ .loadState hw
  | tryPop loop =>
    simp only [hw] at h
    obtain ⟨t, ht, rfl⟩ := Option.map_eq_some_iff.1 h
    obtain ⟨b, hb, rfl⟩ := onBuffer_eq_some ht
    exact .tryPop loop b hw hb
  | inside loop =>
    simp only [hw] at h
    obtain ⟨t, ht, rfl⟩ := Option.map_eq_some_iff.1 h
    obtain ⟨b, hb, rfl⟩ := onBuffer_eq_some ht
    exact .inside loop b hw hb
  | write loop =>
    simp only [hw, Option.some.injEq] at h
    exact h ▸ .write loop hw
  | ended => simp [hw] at h

theorem of_own (h : s.own = some s') : Step s .own s' := by
  unfold own at h
  cases ho : s.owner with
  | constructing =>
    simp only [ho, Option.some.injEq] at h
    exact h ▸ .ready ho
  | destroying =>
    simp only [ho, Option.some.injEq] at h
    exact h ▸ .shutDown ho
  | joining =>
    simp only [ho, Option.ite_none_right_eq_some, Option.some.injEq] at h
    exact h.2 ▸ .join ho h.1
  | running | joined => simp [ho] at h

theorem of_step (h : s.step l = some s') : Step s l s' := by
  cases l with
  | add t a =>
    obtain ⟨b, hb, rfl⟩ := onBuffer_eq_some h
    exact .add t a b hb
  | produce t =>
    obtain ⟨b, hb, rfl⟩ := onBuffer_eq_some h
    exact .produce t b hb
  | badAlloc t =>
    obtain ⟨b, hb, rfl⟩ := onBuffer_eq_some h
    exact .badAlloc t b hb
  | work => exact of_work h
  | own => exact of_own h
  | destroy =>
    obtain ⟨ho, h⟩ := Option.ite_none_right_eq_some.1 h
    exact Option.some.inj h ▸ .destroy ho

end Step

/-- A step of the logger makes its operation on the buffer, or leaves the buffer alone. -/
theorem buffer_of_step (hs : s.step l = some s') :
    (s.operation l = none ∧ s'.buffer = s.buffer) ∨
      ∃ op, s.operation l = some op ∧ BufferBase.step s.buffer op = some s'.buffer := by
  cases Step.of_step hs with
  | add t a b hop | produce t b hop | badAlloc t b hop => exact .inr ⟨_, rfl, hop⟩
  | tryPop loop b hw hop | inside loop b hw hop =>
    exact .inr ⟨_, by simp only [operation, hw], hop⟩
  | wait hw | start hw | loadState hw | write loop hw =>
    exact .inl ⟨by simp only [operation, hw], rfl⟩
  | ready | shutDown | join | destroy => exact .inl ⟨rfl, rfl⟩

/-- The owner's thread alone moves the owner. -/
theorem owner_of_step (hs : s.step l = some s') (hown : l ≠ .own) (hdestroy : l ≠ .destroy) :
    s'.owner = s.owner := by
  cases Step.of_step hs with
  | ready | shutDown | join => exact absurd rfl hown
  | destroy => exact absurd rfl hdestroy
  | _ => rfl

/-- Only the worker writes, and it writes the line in its hand. -/
theorem written_of_step (hs : s.step l = some s') :
    (s'.written = s.written ∧ (l = .work → ∀ loop, s.worker ≠ .write loop)) ∨
      l = .work ∧ (∃ loop, s.worker = .write loop) ∧
        s'.written = s.written ++ [BufferBase.logline s.buffer] := by
  cases Step.of_step hs with
  | write loop hw => exact .inr ⟨rfl, ⟨loop, hw⟩, rfl⟩
  | wait hw | start hw | loadState hw | tryPop loop b hw | inside loop b hw =>
    exact .inl ⟨rfl, fun _ _ heq => by cases hw.symm.trans heq⟩
  | _ => exact .inl ⟨rfl, fun heq => by cases heq⟩

theorem work_eq_none (h : s.worker = .ended) : s.work = none := by
  unfold work
  rw [h]

section Runs

variable {guard : AsyncLogger B L → Label T α → Prop} {b₀ : B}

/-- A run of the logger is a run of its buffer. -/
theorem buffer_reaches (h : (machine b₀).Reaches guard s s') :
    (BufferBase.machine b₀).Reaches Machine.anyStep s.buffer s'.buffer := by
  refine h.project buffer fun s l s' _ hs => ?_
  rcases buffer_of_step hs with ⟨-, hb⟩ | ⟨op, -, hop⟩
  · rw [hb]
    exact .refl
  · exact .single op trivial hop

/-- The destructor ends when the worker has. -/
theorem ended_of_joined (h : (machine b₀).Reachable guard s) (ho : s.owner = .joined) :
    s.worker = .ended := by
  refine h.invariant (P := fun s => s.owner = .joined → s.worker = .ended) nofun ?_ ho
  intro s l s' ih _ hs ho
  by_cases hwork : l = .work
  · subst hwork
    have howner : s'.owner = s.owner := owner_of_step (l := .work) hs nofun nofun
    change s.work = some s' at hs
    rw [work_eq_none (ih (howner ▸ ho))] at hs
    cases hs
  · cases Step.of_step hs with
    | add | produce | badAlloc => exact ih ho
    | join hj hw => exact hw
    | ready | shutDown | destroy => cases ho
    | _ => exact absurd rfl hwork

end Runs

end AsyncLogger

end ZephyrLog
