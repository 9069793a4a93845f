import ZephyrLog.QueueBuffer.Model

/-!
# The steps of the buffer queue

`Step` lists what one operation of a producer or of the consumer can do, guards included;
`Step.of_step` is the inversion of `System.step`.
-/

namespace ZephyrLog

namespace Buffer

variable {β : Type}

theorem count_publish (b : Buffer β) {w : ℕ} (hw : w < size) :
    (b.publish w).count = b.count := by
  simp [count, publish, Nat.ne_of_gt hw]

@[simp] theorem count_countUp (b : Buffer β) : b.countUp.count = b.count + 1 := by
  simp [count, countUp]

theorem isWritten_publish (b : Buffer β) (w i : ℕ) :
    (b.publish w).isWritten i ↔ i = w ∨ b.isWritten i := by
  by_cases h : i = w <;> simp [isWritten, publish, h]

theorem isWritten_countUp (b : Buffer β) {i : ℕ} (hi : i < size) :
    b.countUp.isWritten i ↔ b.isWritten i := by
  simp [isWritten, countUp, Nat.ne_of_lt hi]

theorem buffer_construct (b : Buffer β) (w i : ℕ) (logline : β) :
    (b.construct w logline).buffer i = if i = w then some (.line logline) else b.buffer i := by
  by_cases h : i = w <;> simp [construct, h]

theorem buffer_moveOut (b : Buffer β) {w i : ℕ} (h : i ≠ w) :
    (b.moveOut w).buffer i = b.buffer i := by
  simp [moveOut, h]

theorem buffer_destroy (b : Buffer β) (i : ℕ) (h : b.buffer i = none) :
    b.destroy.buffer i = none := by
  simp [destroy, h]

end Buffer

namespace QueueBuffer

variable {β T α : Type} [DecidableEq T]

theorem onBuffer_heap (q : QueueBuffer β) (b c : ℕ) (f : Buffer β → Buffer β) :
    (q.onBuffer b f).heap c = if c = b then f (q.heap b) else q.heap c := by
  by_cases h : c = b
  · subst h
    rw [if_pos rfl]
    exact Function.update_self _ _ _
  · rw [if_neg h]
    exact Function.update_of_ne h _ _

/-- What an operation on one buffer leaves alone in it, it leaves alone in every buffer. -/
theorem onBuffer_view {γ : Type} (view : Buffer β → γ) {q : QueueBuffer β} {b : ℕ}
    {f : Buffer β → Buffer β} (hf : view (f (q.heap b)) = view (q.heap b)) (c : ℕ) :
    view ((q.onBuffer b f).heap c) = view (q.heap c) := by
  rw [onBuffer_heap]
  split
  · next h => rw [h, hf]
  · rfl

theorem onBuffer_heap_self (q : QueueBuffer β) (b : ℕ) (f : Buffer β → Buffer β) :
    (q.onBuffer b f).heap b = f (q.heap b) := Function.update_self _ _ _

/-- One operation, by the program location that executes it. -/
inductive Step (s : System T α) : Label T α → System T α → Prop
  | begin (t : T) (a : α) (ht : s.producers t = .idle) :
      Step s (.push t a)
        ((s.begin ⟨t, s.begun.length, a⟩).goto t ⟨t, s.begun.length, a⟩ .claim)
  | claim (t : T) (p : Push T α) (ht : s.producers t = .pushing p .claim)
      (hw : s.queue.writeIndex.toNat < Buffer.size) :
      Step s (.produce t) ((s.afterClaim p).goto t p (.load s.queue.writeIndex.toNat))
  | discard (t : T) (p : Push T α) (ht : s.producers t = .pushing p .claim)
      (hw : Buffer.size ≤ s.queue.writeIndex.toNat) :
      Step s (.produce t) ((s.setQueue s.queue.fetchAddWriteIndex).goto t p .spin)
  | spin (t : T) : Step s (.produce t) s
  | retry (t : T) (p : Push T α) (ht : s.producers t = .pushing p .spin)
      (hw : s.queue.writeIndex.toNat < Buffer.size) : Step s (.produce t) (s.goto t p .claim)
  | load (t : T) (p : Push T α) (w b : ℕ) (ht : s.producers t = .pushing p (.load w))
      (hb : s.queue.currentWriteBuffer = some b) :
      Step s (.produce t) (s.goto t p (.construct b w))
  | construct (t : T) (p : Push T α) (b w : ℕ)
      (ht : s.producers t = .pushing p (.construct b w)) :
      Step s (.produce t) ((s.afterConstruct p b w).goto t p (.publish b w))
  | publish (t : T) (p : Push T α) (b w : ℕ) (ht : s.producers t = .pushing p (.publish b w)) :
      Step s (.produce t)
        ((s.setQueue (s.queue.onBuffer b (·.publish w))).goto t p (.count b))
  | countLast (t : T) (p : Push T α) (b : ℕ) (ht : s.producers t = .pushing p (.count b))
      (hfull : ((s.queue.heap b).count + 1).toNat = Buffer.size) :
      Step s (.produce t) ((s.setQueue (s.queue.onBuffer b .countUp)).goto t p .lock)
  | count (t : T) (p : Push T α) (b : ℕ) (ht : s.producers t = .pushing p (.count b))
      (hfull : ((s.queue.heap b).count + 1).toNat ≠ Buffer.size) :
      Step s (.produce t) ((s.setQueue (s.queue.onBuffer b .countUp)).leave t)
  | lock (t : T) (p : Push T α) (ht : s.producers t = .pushing p .lock)
      (hflag : s.queue.flag = false) :
      Step s (.produce t) ((s.setQueue s.queue.acquire).goto t p .alloc)
  | alloc (t : T) (p : Push T α) (ht : s.producers t = .pushing p .alloc) :
      Step s (.produce t)
        ((s.setQueue s.queue.alloc).goto t p (.setWriteBuffer s.queue.allocated))
  | badAlloc (t : T) (p : Push T α) (ht : s.producers t = .pushing p .alloc) :
      Step s (.badAlloc t) (s.goto t p .unlock)
  | setWriteBuffer (t : T) (p : Push T α) (next : ℕ)
      (ht : s.producers t = .pushing p (.setWriteBuffer next)) :
      Step s (.produce t)
        ((s.setQueue (s.queue.setWriteBuffer next)).goto t p (.enqueue next))
  | enqueue (t : T) (p : Push T α) (next : ℕ)
      (ht : s.producers t = .pushing p (.enqueue next)) :
      Step s (.produce t) ((s.setQueue (s.queue.enqueue next)).goto t p .resetIndex)
  | resetIndex (t : T) (p : Push T α) (ht : s.producers t = .pushing p .resetIndex) :
      Step s (.produce t) (s.afterReset.goto t p .unlock)
  | unlock (t : T) (p : Push T α) (ht : s.producers t = .pushing p .unlock) :
      Step s (.produce t) ((s.setQueue s.queue.release).leave t)
  | tryPopFront (result : Option Bool) (hc : s.consumer = .outside result)
      (hr : s.queue.currentReadBuffer = none) : Step s .tryPop (s.await s.queue .lockFront)
  | tryPop (result : Option Bool) (b : ℕ) (hc : s.consumer = .outside result)
      (hr : s.queue.currentReadBuffer = some b) : Step s .tryPop (s.await s.queue (.load b))
  | wait (hc : s.consumer = .lockFront ∨ s.consumer = .lockPop) : Step s .consume s
  | lockFront (hc : s.consumer = .lockFront) (hflag : s.queue.flag = false) :
      Step s .consume (s.await s.queue.acquire .front)
  | front (hc : s.consumer = .front) :
      Step s .consume (s.await s.queue (.unlockFront s.queue.buffers.head?))
  | noFront (hc : s.consumer = .unlockFront none) :
      Step s .consume (s.await s.queue.release (.outside (some false)))
  | unlockFront (b : ℕ) (hc : s.consumer = .unlockFront (some b)) :
      Step s .consume (s.await { s.queue.release with currentReadBuffer := some b } (.load b))
  | loadWritten (b : ℕ) (hc : s.consumer = .load b)
      (hw : (s.queue.heap b).isWritten s.queue.readIndex.toNat) :
      Step s .consume (s.await s.queue (.move b))
  | loadEmpty (b : ℕ) (hc : s.consumer = .load b)
      (hw : ¬ (s.queue.heap b).isWritten s.queue.readIndex.toNat) :
      Step s .consume (s.await s.queue (.outside (some false)))
  | move (b : ℕ) (c : Cell (Push T α)) (hc : s.consumer = .move b)
      (hcell : (s.queue.heap b).buffer s.queue.readIndex.toNat = some c) :
      Step s .consume (s.afterMove b c).advance
  | lockPop (hc : s.consumer = .lockPop) (hflag : s.queue.flag = false) :
      Step s .consume (s.await s.queue.acquire .pop)
  | pop (b : ℕ) (rest : List ℕ) (hc : s.consumer = .pop) (hb : s.queue.buffers = b :: rest) :
      Step s .consume (s.afterPop b rest)
  | unlockPop (hc : s.consumer = .unlockPop) :
      Step s .consume (s.await s.queue.release (.outside (some true)))

variable {s s' : System T α}

theorem Step.of_produce {t : T} {p : Push T α} {pc : Pc} (ht : s.producers t = .pushing p pc)
    (h : s.produce t p pc = some s') : Step s (.produce t) s' := by
  cases pc with
  | claim =>
    by_cases hw : s.queue.writeIndex.toNat < Buffer.size
    · rw [System.produce, if_pos hw] at h
      exact Option.some.inj h ▸ .claim t p ht hw
    · rw [System.produce, if_neg hw] at h
      exact Option.some.inj h ▸ .discard t p ht (Nat.le_of_not_lt hw)
  | spin =>
    by_cases hw : Buffer.size ≤ s.queue.writeIndex.toNat
    · rw [System.produce, if_pos hw] at h
      exact Option.some.inj h ▸ .spin t
    · rw [System.produce, if_neg hw] at h
      exact Option.some.inj h ▸ .retry t p ht (Nat.lt_of_not_le hw)
  | load w =>
    obtain ⟨b, hb, h⟩ := Option.map_eq_some_iff.1 h
    exact h ▸ .load t p w b ht hb
  | construct b w => exact Option.some.inj h ▸ .construct t p b w ht
  | publish b w => exact Option.some.inj h ▸ .publish t p b w ht
  | count b =>
    by_cases hfull : ((s.queue.heap b).count + 1).toNat = Buffer.size
    · rw [System.produce, if_pos hfull] at h
      exact Option.some.inj h ▸ .countLast t p b ht hfull
    · rw [System.produce, if_neg hfull] at h
      exact Option.some.inj h ▸ .count t p b ht hfull
  | lock =>
    cases hflag : s.queue.flag with
    | true =>
      simp only [System.produce, hflag, if_true, Option.some.injEq] at h
      exact h ▸ .spin t
    | false =>
      simp only [System.produce, hflag, Bool.false_eq_true, if_false, Option.some.injEq] at h
      exact h ▸ .lock t p ht hflag
  | alloc => exact Option.some.inj h ▸ .alloc t p ht
  | setWriteBuffer next => exact Option.some.inj h ▸ .setWriteBuffer t p next ht
  | enqueue next => exact Option.some.inj h ▸ .enqueue t p next ht
  | resetIndex => exact Option.some.inj h ▸ .resetIndex t p ht
  | unlock => exact Option.some.inj h ▸ .unlock t p ht

theorem Step.of_consume (h : s.consume = some s') : Step s .consume s' := by
  unfold System.consume at h
  cases hc : s.consumer with
  | outside r => simp [hc] at h
  | lockFront =>
    cases hflag : s.queue.flag with
    | true =>
      simp only [hc, hflag, if_true, Option.some.injEq] at h
      exact h ▸ .wait (.inl hc)
    | false =>
      simp only [hc, hflag, Bool.false_eq_true, if_false, Option.some.injEq] at h
      exact h ▸ .lockFront hc hflag
  | front =>
    simp only [hc, Option.some.injEq] at h
    exact h ▸ .front hc
  | unlockFront r =>
    cases r with
    | none =>
      simp only [hc, Option.some.injEq] at h
      exact h ▸ .noFront hc
    | some b =>
      simp only [hc, Option.some.injEq] at h
      exact h ▸ .unlockFront b hc
  | load b =>
    by_cases hw : (s.queue.heap b).isWritten s.queue.readIndex.toNat
    · simp only [hc, hw, if_true, Option.some.injEq] at h
      exact h ▸ .loadWritten b hc hw
    · simp only [hc, hw, if_false, Option.some.injEq] at h
      exact h ▸ .loadEmpty b hc hw
  | move b =>
    simp only [hc] at h
    obtain ⟨c, hcell, h⟩ := Option.map_eq_some_iff.1 h
    exact h ▸ .move b c hc hcell
  | lockPop =>
    cases hflag : s.queue.flag with
    | true =>
      simp only [hc, hflag, if_true, Option.some.injEq] at h
      exact h ▸ .wait (.inr hc)
    | false =>
      simp only [hc, hflag, Bool.false_eq_true, if_false, Option.some.injEq] at h
      exact h ▸ .lockPop hc hflag
  | pop =>
    cases hb : s.queue.buffers with
    | nil => simp [hc, hb] at h
    | cons b rest =>
      simp only [hc, hb, Option.some.injEq] at h
      exact h ▸ .pop b rest hc hb
  | unlockPop =>
    simp only [hc, Option.some.injEq] at h
    exact h ▸ .unlockPop hc

/-- What a step can do. -/
theorem Step.of_step {l : Label T α} (h : s.step l = some s') : Step s l s' := by
  cases l with
  | push t a =>
    cases ht : s.producers t with
    | idle =>
      simp only [System.step, ht, Option.some.injEq] at h
      exact h ▸ .begin t a ht
    | pushing p pc => simp [System.step, ht] at h
  | produce t =>
    cases ht : s.producers t with
    | idle => simp [System.step, ht] at h
    | pushing p pc =>
      simp only [System.step, ht] at h
      exact .of_produce ht h
  | badAlloc t =>
    cases ht : s.producers t with
    | idle => simp [System.step, ht] at h
    | pushing p pc =>
      cases pc <;> simp only [System.step, ht, Option.some.injEq, reduceCtorEq] at h
      exact h ▸ .badAlloc t p ht
  | tryPop =>
    cases hc : s.consumer with
    | outside r =>
      cases hr : s.queue.currentReadBuffer with
      | none =>
        simp only [System.step, hc, hr, Option.some.injEq] at h
        exact h ▸ .tryPopFront r hc hr
      | some b =>
        simp only [System.step, hc, hr, Option.some.injEq] at h
        exact h ▸ .tryPop r b hc hr
    | _ => simp [System.step, hc] at h
  | consume => exact .of_consume h

end QueueBuffer

end ZephyrLog
