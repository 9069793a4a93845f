import ZephyrLog.Lib.SpinLock
import ZephyrLog.QueueBuffer.Fifo

/-!
# The lock of the buffer queue, and why no call is stuck

`m_flag` guards `m_buffers`: a producer holds it from its `test_and_set` in `setupNextWriteBuffer`
to the end of that function, the consumer in `getNextReadBuffer` and around `m_buffers.pop()`.  The
flag is set exactly while one of them holds it.  And every call in progress has a next step, if the
memory of a deleted buffer counts as valid: the write buffer is never null, the consumer never moves
out of raw memory, and `m_buffers` is never empty when its front is removed.
-/

namespace ZephyrLog

namespace QueueBuffer

variable {T α : Type}

/-- The lock is held before the operation. -/
def Pc.holds : Pc → Option Unit
  | .alloc | .setWriteBuffer _ | .enqueue _ | .resetIndex | .unlock => some ()
  | _ => none

/-- The lock is held by the producer. -/
def Producer.holds : Producer T α → Option Unit
  | .idle => none
  | .pushing _ pc => pc.holds

/-- The lock is held by the consumer. -/
def Consumer.holds : Consumer → Option Unit
  | .front | .unlockFront _ | .pop | .unlockPop => some ()
  | _ => none

/-- Whether a thread holds the lock, or the consumer. -/
def System.holds (s : System T α) : Option T → Option Unit :=
  parties (fun t => (s.producers t).holds) s.consumer.holds

/-- The next operation of a thread or of the consumer is one on `m_buffers`. -/
def System.Touches (s : System T α) : Option T → Prop
  | none => s.consumer = .front ∨ s.consumer = .pop
  | some t => ∃ p next, s.producers t = .pushing p (.enqueue next)

/-- The flag is that of a spin lock. -/
def Excluded (s : System T α) : Prop := Exclusive (fun _ : Unit => s.queue.flag) s.holds

section Holding

variable {s s' : System T α} {t : T} {p : Push T α} {pc : Pc}

theorem holds_of_touches {who : Option T} (h : s.Touches who) : s.holds who = some () := by
  cases who with
  | none => rcases h with hc | hc <;> simp [System.holds, parties, hc, Consumer.holds]
  | some t =>
    obtain ⟨p, next, ht⟩ := h
    simp [System.holds, parties, ht, Producer.holds, Pc.holds]

theorem holds_await [DecidableEq T] (s : System T α) (q : QueueBuffer (Push T α)) (c : Consumer) :
    (s.await q c).holds = Function.update s.holds none c.holds :=
  parties_update_other _ _ _

theorem holds_update [DecidableEq T] (s : System T α) (t : T) (x : Producer T α) :
    { s with producers := Function.update s.producers t x }.holds =
      Function.update s.holds (some t) x.holds := by
  rw [System.holds, System.holds, ← parties_update_thread]
  congr 1
  funext u
  by_cases h : u = t
  · subst h
    simp
  · simp [h]

namespace Excluded

theorem init : Excluded (System.init : System T α) := by
  have h : (System.init : System T α).holds = fun _ => none := by
    funext who
    cases who <;> rfl
  rw [Excluded, h]
  exact Exclusive.init

/-- An operation that leaves the lock alone. -/
theorem congr (h : Excluded s) (hflag : s'.queue.flag = s.queue.flag)
    (hproducers : ∀ t, (s'.producers t).holds = (s.producers t).holds)
    (hconsumer : s'.consumer.holds = s.consumer.holds) : Excluded s' := by
  have hholds : s'.holds = s.holds := by
    funext who
    cases who with
    | none => exact hconsumer
    | some t => exact hproducers t
  rw [Excluded, hholds, hflag]
  exact h

theorem advance (h : Excluded s) (hc : s.consumer.holds = none) : Excluded s.advance := by
  unfold System.advance
  split <;> exact h.congr rfl (fun _ => rfl) hc.symm

variable [DecidableEq T]

/-- The thread goes on to an operation before which it holds the lock as it did. -/
theorem goto (h : Excluded s) {pc' : Pc} (ht : s.producers t = .pushing p pc)
    (hpc : pc'.holds = pc.holds) : Excluded (s.goto t p pc') :=
  h.congr rfl (view_update Producer.holds (s := s) (by rw [ht]; exact hpc)) rfl

theorem leave (h : Excluded s) (ht : s.producers t = .pushing p pc) (hpc : pc.holds = none) :
    Excluded (s.leave t) :=
  h.congr rfl (view_update Producer.holds (s := s) (by rw [ht]; exact hpc.symm)) rfl

theorem begin (h : Excluded s) (ht : s.producers t = .idle) :
    Excluded ((s.begin p).goto t p .claim) :=
  h.congr rfl (view_update Producer.holds (s := s) (by rw [ht]; rfl)) rfl

omit [DecidableEq T] in
/-- An operation on the queue's other members or on the history. -/
theorem same (h : Excluded s) (hflag : s'.queue.flag = s.queue.flag)
    (hproducers : s'.producers = s.producers) (hconsumer : s'.consumer = s.consumer) :
    Excluded s' :=
  h.congr hflag (fun t => by rw [hproducers]) (by rw [hconsumer])

theorem acquire (h : Excluded s) (ht : (s.producers t).holds = none)
    (hflag : s.queue.flag = false) {x : Producer T α} (hx : x.holds = some ()) :
    Excluded { s with
      queue := s.queue.acquire
      producers := Function.update s.producers t x } := by
  have hacq := Exclusive.acquire h (p := some t) ht (l := ()) hflag
  rw [← hx, ← holds_update] at hacq
  have hflags : Function.update (fun _ : Unit => s.queue.flag) () true = fun _ => true :=
    funext fun _ => Function.update_self ..
  rw [hflags] at hacq
  exact hacq

theorem release (h : Excluded s) (ht : (s.producers t).holds = some ()) {x : Producer T α}
    (hx : x.holds = none) :
    Excluded { s with
      queue := s.queue.release
      producers := Function.update s.producers t x } := by
  have hrel := Exclusive.release h (p := some t) ht
  rw [← hx, ← holds_update] at hrel
  have hflags : Function.update (fun _ : Unit => s.queue.flag) () false = fun _ => false :=
    funext fun _ => Function.update_self ..
  rw [hflags] at hrel
  exact hrel

theorem acquireConsumer (h : Excluded s) (hc : s.consumer.holds = none)
    (hflag : s.queue.flag = false) {c : Consumer} (hc' : c.holds = some ())
    {q : QueueBuffer (Push T α)} (hq : q.flag = true) : Excluded (s.await q c) := by
  have hacq := Exclusive.acquire h (p := none) hc (l := ()) hflag
  have hflags : Function.update (fun _ : Unit => s.queue.flag) () true = fun _ => true :=
    funext fun _ => Function.update_self ..
  rw [hflags, ← hc', ← holds_await s q] at hacq
  rw [Excluded, System.await, hq]
  exact hacq

theorem releaseConsumer (h : Excluded s) (hc : s.consumer.holds = some ()) {c : Consumer}
    (hc' : c.holds = none) {q : QueueBuffer (Push T α)} (hq : q.flag = false) :
    Excluded (s.await q c) := by
  have hrel := Exclusive.release h (p := none) hc
  have hflags : Function.update (fun _ : Unit => s.queue.flag) () false = fun _ => false :=
    funext fun _ => Function.update_self ..
  rw [hflags, ← hc', ← holds_await s q] at hrel
  rw [Excluded, System.await, hq]
  exact hrel

theorem step (h : Excluded s) {l : Label T α} (hs : Step s l s') : Excluded s' := by
  cases hs with
  | spin t => exact h
  | wait hc => exact h
  | begin t a ht => exact h.begin ht
  | claim t p ht => exact goto (h.same rfl rfl rfl) ht rfl
  | discard t p ht => exact goto (h.same rfl rfl rfl) ht rfl
  | retry t p ht => exact h.goto ht rfl
  | load t p w b ht => exact h.goto ht rfl
  | construct t p b w ht => exact goto (h.same rfl rfl rfl) ht rfl
  | publish t p b w ht => exact goto (h.same rfl rfl rfl) ht rfl
  | countLast t p b ht => exact goto (h.same rfl rfl rfl) ht rfl
  | count t p b ht => exact leave (h.same rfl rfl rfl) ht rfl
  | lock t p ht hflag => exact h.acquire (by rw [ht]; rfl) hflag rfl
  | alloc t p ht => exact goto (h.same rfl rfl rfl) ht rfl
  | badAlloc t p ht => exact h.goto ht rfl
  | setWriteBuffer t p next ht =>
    exact goto (h.same rfl rfl rfl) ht rfl
  | enqueue t p next ht => exact goto (h.same rfl rfl rfl) ht rfl
  | resetIndex t p ht => exact goto (h.same rfl rfl rfl) ht rfl
  | unlock t p ht => exact h.release (by rw [ht]; rfl) rfl
  | tryPopFront r hc | tryPop r b hc | loadWritten b hc | loadEmpty b hc | front hc =>
    exact h.congr rfl (fun _ => rfl) (by rw [hc]; rfl)
  | lockFront hc hflag | lockPop hc hflag =>
    exact h.acquireConsumer (by rw [hc]; rfl) hflag rfl rfl
  | noFront hc | unlockFront b hc | unlockPop hc =>
    exact h.releaseConsumer (by rw [hc]; rfl) rfl rfl
  | move b c hc => exact advance (h.same rfl rfl rfl) (by rw [System.afterMove, hc]; rfl)
  | pop b rest hc => exact h.congr rfl (fun _ => rfl) (by rw [hc]; rfl)

theorem of_reachable {guard : System T α → Label T α → Prop}
    (h : (machine T α).Reachable guard s) : Excluded s :=
  h.invariant init fun _ _ _ hx _ hstep => hx.step (Step.of_step hstep)

end Excluded

end Holding

/-! ## Every operation is defined -/

section Defined

variable [Fintype T] {s : System T α} {t : T} {p : Push T α} {pc : Pc}

theorem exists_currentWriteBuffer (h : Switching s) : ∃ b, s.queue.currentWriteBuffer = some b := by
  rcases Nat.eq_zero_or_pos (s.total Pc.switching) with hzero | hpos
  · exact ⟨_, (h.settled hzero).current⟩
  · obtain ⟨t, p, pc, hp, ht⟩ := exists_pushing_of_total_pos hpos
    have hat := h.pcs t p pc hp
    cases pc with
    | lock | alloc | resetIndex => exact ⟨_, hat.current⟩
    | setWriteBuffer | enqueue => exact ⟨_, hat.2.current⟩
    | _ => exact absurd ht (Nat.lt_irrefl 0)

/-- The line that the consumer is to move out is there. -/
theorem exists_cell (h : Protocol s) {b : ℕ} (hc : s.consumer = .move b) :
    ∃ c, (s.queue.heap b).buffer s.queue.readIndex.toNat = some c := by
  have hat := h.reading.atConsumer
  rw [hc] at hat
  obtain ⟨-, hb, hw⟩ := hat
  have hlen : s.popped.length = position b s.queue.readIndex.toNat := by
    rw [h.reading.popped_length, hc, ← hb]
    exact Nat.add_zero _
  obtain ⟨p, -, hslot⟩ := h.slots.contents b _ h.reading.readIndex_lt hw hlen.le
  exact ⟨_, hslot⟩

/-- A buffer that has been read to its end is still the front of `m_buffers`. -/
theorem buffers_ne_nil (h : Protocol s) (hc : s.consumer = .pop) : s.queue.buffers ≠ [] := by
  intro hnil
  obtain ⟨e, he, hrange⟩ := Protocol.enqueued h.switching
  have hlen := congrArg List.length hrange
  rw [hnil, List.append_nil, List.length_range] at hlen
  have hread := h.reading.read s.released.length 0 size_pos (h.reading.before_pop hc 0 size_pos)
  exact h.switching.not_isWritten (by omega) 0 hread

variable [DecidableEq T]

theorem produce_isSome (h : Switching s) (pc : Pc) : (s.produce t p pc).isSome := by
  cases pc with
  | load w =>
    obtain ⟨b, hb⟩ := exists_currentWriteBuffer h
    simp [System.produce, hb]
  | claim | count b =>
    simp only [System.produce]
    split <;> rfl
  | _ => rfl

omit [DecidableEq T] in
theorem consume_isSome (h : Protocol s) (hc : ∀ r, s.consumer ≠ .outside r) :
    s.consume.isSome := by
  unfold System.consume
  cases hcase : s.consumer with
  | outside r => exact absurd hcase (hc r)
  | unlockFront front => cases front <;> rfl
  | load b =>
    simp only
    split <;> rfl
  | move b =>
    obtain ⟨c, hcell⟩ := exists_cell h hcase
    simp [hcell]
  | pop =>
    cases hbuffers : s.queue.buffers with
    | nil => exact absurd hbuffers (buffers_ne_nil h hcase)
    | cons b rest => rfl
  | _ => rfl

end Defined

/-- The queue's lock excludes, and no call is stuck on the state of the queue: in every
interleaving, failing allocations included, `m_flag` is set exactly while a thread or the consumer
holds the lock, no two do, whoever touches `m_buffers` next holds it, and every call that is in
progress has a next step, so no null buffer is written, no raw memory is moved from and no empty
`m_buffers` is popped.  The memory of a deleted buffer counts as valid. -/
theorem excluded_and_defined [Fintype T] [DecidableEq T]
    (hcard : Fintype.card T + Buffer.size < 2 ^ 32) {s : System T α}
    (h : (machine T α).Reachable Machine.anyStep s) :
    (s.queue.flag = true ↔ ∃ who, s.holds who = some ()) ∧
      (∀ who other, s.holds who = some () → s.holds other = some () → who = other) ∧
      (∀ who, s.Touches who → s.holds who = some ()) ∧
      (∀ t, s.producers t ≠ .idle → (s.step (.produce t)).isSome) ∧
      ((∀ r, s.consumer ≠ .outside r) → (s.step .consume).isSome) := by
  have hp := Protocol.of_card hcard h
  have hx := Excluded.of_reachable h
  refine ⟨hx.flag_iff (), fun who other => hx.unique who other (), fun who => holds_of_touches,
    fun t ht => ?_, fun hc => consume_isSome hp hc⟩
  cases hx : s.producers t with
  | idle => exact absurd hx ht
  | pushing p pc =>
    have hsome := produce_isSome (t := t) (p := p) hp.switching pc
    simpa only [System.step, hx] using hsome

/-- The consumer inside `getNextReadBuffer`. -/
theorem excluded_and_defined_front : ∃ s : System Unit ℕ, s.consumer = .front ∧
    s.queue.flag = true ∧ (s.step .consume).isSome := by
  obtain ⟨s, hs, hc⟩ := Option.map_eq_some_iff.1 (show
    ((machine Unit ℕ).exec .init [.tryPop, .consume]).map System.consumer = some .front from rfl)
  obtain ⟨hflag, -, htouch, -, hconsume⟩ := excluded_and_defined (by decide)
    (Machine.Reaches.of_exec (M := machine Unit ℕ) _ (fun _ _ _ => trivial) hs)
  exact ⟨s, hc, hflag.2 ⟨none, htouch none (.inl hc)⟩, hconsume (by simp [hc])⟩

end QueueBuffer

end ZephyrLog
