import ZephyrLog.QueueBuffer.Reading

/-!
# The invariant of the buffer queue

`Protocol` puts the calls, the counters, the slots and the consumer together; every step keeps it
as long as `m_writeIndex` does not wrap.
-/

namespace ZephyrLog

namespace QueueBuffer

variable {T α : Type} [Fintype T]

/-- The invariant of the queue: its history, its switches, its slots and its consumer. -/
structure Protocol (s : System T α) : Prop where
  history : History s
  switching : Switching s
  slots : Slots s
  reading : Reading s

namespace Protocol

variable {s s' : System T α}

theorem init : Protocol (System.init : System T α) := ⟨.init, .init, .init, .init⟩

/-- The buffers are deleted in the order in which they were enqueued. -/
theorem enqueued (h : Switching s) :
    ∃ e, s.switches < e ∧ s.released ++ s.queue.buffers = List.range e := by
  rcases Nat.eq_zero_or_pos (s.total Pc.switching) with hzero | hpos
  · exact ⟨_, Nat.lt_succ_self _, (h.settled hzero).enqueued⟩
  · obtain ⟨t, p, pc, hp, ht⟩ := exists_pushing_of_total_pos hpos
    have hat := h.pcs t p pc hp
    cases pc with
    | lock | alloc => exact ⟨_, Nat.lt_succ_self _, hat.enqueued⟩
    | resetIndex => exact ⟨_, by omega, hat.enqueued⟩
    | setWriteBuffer | enqueue => exact ⟨_, Nat.lt_succ_self _, hat.2.enqueued⟩
    | _ => exact absurd ht (Nat.lt_irrefl 0)

theorem released_eq (h : Switching s) : s.released = List.range s.released.length := by
  obtain ⟨e, -, he⟩ := enqueued h
  have hle : s.released.length ≤ e := by
    rw [← List.length_range (n := e), ← he, List.length_append]
    omega
  have htake := congrArg (List.take s.released.length) he
  rwa [List.take_left, List.take_range, min_eq_left hle] at htake

theorem lt_of_released (h : Switching s) {b : ℕ} (hb : b ∈ s.released) :
    b < s.released.length := by
  rw [released_eq h] at hb
  exact List.mem_range.1 hb

/-- A deleted buffer lies before the consumer's cursor. -/
theorem position_lt_popped (h : Protocol s) {b i : ℕ} (hb : b ∈ s.released)
    (hi : i < Buffer.size) : position b i < s.popped.length := by
  have hlt := lt_of_released h.switching hb
  have hlen := h.reading.popped_length
  have hmul := Nat.mul_le_mul_right Buffer.size (show b + 1 ≤ s.released.length by omega)
  unfold position at hlen ⊢
  rw [Nat.succ_mul] at hmul
  omega

theorem written_of_released (h : Protocol s) {b i : ℕ} (hb : b ∈ s.released)
    (hi : i < Buffer.size) : s.Written b i :=
  h.reading.read b i hi (h.position_lt_popped hb hi)

/-- The front of `m_buffers` is the buffer after the last one deleted. -/
theorem front_eq (h : Switching s) {b : ℕ} (hb : s.queue.buffers.head? = some b) :
    b = s.released.length := by
  obtain ⟨e, -, he⟩ := enqueued h
  have hget : (s.released ++ s.queue.buffers)[s.released.length]? = some b := by
    rw [List.getElem?_append_right (Nat.le_refl _), Nat.sub_self, ← List.head?_eq_getElem?, hb]
  rw [he] at hget
  obtain ⟨hlt, hval⟩ := List.getElem?_eq_some_iff.1 hget
  rw [List.getElem_range] at hval
  exact hval.symm

/-- At `m_buffers.pop()` the flag of every slot of the front buffer is set. -/
theorem written_at_pop (h : Protocol s) (hc : s.consumer = .pop) {b i : ℕ}
    (hb : s.queue.buffers.head? = some b) (hi : i < Buffer.size) : s.Written b i := by
  refine h.reading.read b i hi ?_
  rw [front_eq h.switching hb]
  exact h.reading.before_pop hc i hi

/-- With no push in flight the flag of every claimed slot is set. -/
theorem written_of_quiet (h : Protocol s) (hquiet : s.NoPushInFlight) {b i : ℕ}
    (hi : i < Buffer.size) (hlt : position b i < s.claims.length) : s.Written b i := by
  apply (h.slots.written_or_pending h.switching hi hlt).resolve_right
  rintro ⟨-, t, p, c, ht⟩
  rw [hquiet t] at ht
  cases ht

variable [DecidableEq T]

theorem slots_step (h : Protocol s) {l : Label T α} (hroom : NoWrap s l) (hs : Step s l s') :
    Slots s' := by
  have hsl := h.slots
  cases hs with
  | begin t a ht => exact hsl.begin ht
  | claim t p ht hw => exact hsl.claim h.switching ht hw
  | discard t p ht hw =>
    exact (hsl.setQueue s.queue.fetchAddWriteIndex rfl
      (claimed_discard hw (hroom t p rfl ht))).goto ht rfl
  | spin t => exact hsl
  | wait hc => exact hsl
  | retry t p ht hw => exact hsl.goto ht rfl
  | load t p w b ht hb => exact hsl.goto ht rfl
  | construct t p b w ht => exact hsl.construct h.history h.switching ht
  | publish t p b w ht => exact hsl.publish h.history h.switching ht
  | countLast t p b ht hfull => exact (hsl.countUp b).goto ht rfl
  | count t p b ht hfull => exact (hsl.countUp b).leave ht rfl
  | lock t p ht hflag => exact (hsl.setQueue s.queue.acquire rfl rfl).goto ht rfl
  | alloc t p ht => exact (hsl.setQueue _ (hsl.heap_alloc h.switching ht) rfl).goto ht rfl
  | badAlloc t p ht => exact hsl.goto ht rfl
  | setWriteBuffer t p next ht =>
    exact (hsl.setQueue (s.queue.setWriteBuffer next) rfl rfl).goto ht rfl
  | enqueue t p next ht => exact (hsl.setQueue (s.queue.enqueue next) rfl rfl).goto ht rfl
  | resetIndex t p ht => exact hsl.resetIndex h.switching ht
  | unlock t p ht => exact (hsl.setQueue s.queue.release rfl rfl).leave ht rfl
  | move b c hc hcell =>
    obtain ⟨hlen, -⟩ := h.reading.cell_eq hsl hc hcell
    have hat := h.reading.atConsumer
    rw [hc] at hat
    exact (hsl.afterMove h.switching c hat.2.2 hlen).advance
  | pop b rest hc hb =>
    have hfront : b = s.released.length := front_eq h.switching (by rw [hb]; rfl)
    have hpos := h.reading.before_pop hc
    exact hsl.afterPop rest (fun i hi => h.reading.read b i hi (hfront ▸ hpos i hi))
      fun i hi => hfront ▸ hpos i hi
  | _ => exact hsl.await _ rfl rfl

theorem reading_step (h : Protocol s) {l : Label T α} (hs : Step s l s') : Reading s' := by
  have hr := h.reading
  have hat := hr.atConsumer
  cases hs with
  | spin t => exact hr
  | wait hc => exact hr
  | claim t p ht hw =>
    exact hr.congr rfl rfl rfl rfl rfl (List.prefix_append _ _) fun _ _ _ hi => hi
  | construct t p b w ht =>
    exact hr.congr rfl rfl rfl rfl rfl (List.prefix_refl _) fun a i _ hi =>
      (written_afterConstruct s p b w a i).2 hi
  | publish t p b w ht =>
    exact hr.congr rfl rfl rfl rfl rfl (List.prefix_refl _) fun a i _ hi =>
      (written_publish s b w a i).2 (.inr hi)
  | countLast t p b ht hfull =>
    exact hr.congr rfl rfl rfl rfl rfl (List.prefix_refl _) fun a i hlt hi =>
      (written_countUp s b a hlt).2 hi
  | count t p b ht hfull =>
    exact hr.congr rfl rfl rfl rfl rfl (List.prefix_refl _) fun a i hlt hi =>
      (written_countUp s b a hlt).2 hi
  | alloc t p ht =>
    refine hr.congr rfl rfl rfl rfl rfl (List.prefix_refl _) fun a i _ hi => ?_
    show (s.queue.alloc.heap a).isWritten i
    rwa [h.slots.heap_alloc h.switching ht]
  | tryPopFront r hc hcur =>
    rw [hc] at hat
    exact hr.await rfl rfl (by rw [hc]; rfl) hcur
  | tryPop r b hc hcur =>
    rw [hc] at hat
    exact hr.await rfl rfl (by rw [hc]; rfl) ⟨hcur, hat b hcur⟩
  | lockFront hc hflag =>
    rw [hc] at hat
    exact hr.await rfl rfl (by rw [hc]; rfl) hat
  | front hc =>
    rw [hc] at hat
    exact hr.await rfl rfl (by rw [hc]; rfl) ⟨hat, fun b hb => front_eq h.switching hb⟩
  | noFront hc =>
    rw [hc] at hat
    refine hr.await rfl rfl (by rw [hc]; rfl) fun b hb => ?_
    exact absurd (hat.1.symm.trans hb) (Option.some_ne_none b).symm
  | unlockFront b hc =>
    rw [hc] at hat
    exact hr.await rfl rfl (by rw [hc]; rfl) ⟨rfl, hat.2 b rfl⟩
  | loadWritten b hc hw =>
    rw [hc] at hat
    exact hr.await rfl rfl (by rw [hc]; rfl) ⟨hat.1, hat.2, hw⟩
  | loadEmpty b hc hw =>
    rw [hc] at hat
    refine hr.await rfl rfl (by rw [hc]; rfl) fun a ha => ?_
    exact (Option.some.inj (ha.symm.trans hat.1)).trans hat.2
  | move b c hc hcell => exact hr.move h.slots hc hcell
  | lockPop hc hflag =>
    rw [hc] at hat
    exact hr.await rfl rfl (by rw [hc]; rfl) hat
  | pop b rest hc hb => exact hr.afterPop hc
  | unlockPop hc =>
    rw [hc] at hat
    refine hr.await rfl rfl (by rw [hc]; rfl) fun b hb => ?_
    exact absurd (hat.symm.trans hb) (Option.some_ne_none b).symm
  | _ => exact hr.congr rfl rfl rfl rfl rfl (List.prefix_refl _) fun _ _ _ hi => hi

/-- What every step keeps, provided `m_writeIndex` does not wrap. -/
theorem step (h : Protocol s) {l : Label T α} (hroom : NoWrap s l) (hs : Step s l s') :
    Protocol s' where
  history := h.history.step hs
  switching := h.switching.step hroom hs
  slots := h.slots_step hroom hs
  reading := h.reading_step hs

theorem of_reachable {guard : System T α → Label T α → Prop}
    (hguard : ∀ s l, guard s l → NoWrap s l) (h : (machine T α).Reachable guard s) : Protocol s :=
  h.invariant init fun s l _ hinv hg hstep => hinv.step (hguard s l hg) (Step.of_step hstep)

/-- With fewer than `2 ^ 32 - Buffer::size` threads it holds in every run. -/
theorem of_card (hcard : Fintype.card T + Buffer.size < 2 ^ 32)
    {guard : System T α → Label T α → Prop} (h : (machine T α).Reachable guard s) : Protocol s :=
  h.invariant init fun _ l _ hinv _ hstep =>
    hinv.step (hinv.switching.noWrap hcard l) (Step.of_step hstep)

end Protocol

end QueueBuffer

end ZephyrLog
