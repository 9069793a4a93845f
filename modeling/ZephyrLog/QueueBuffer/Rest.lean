import ZephyrLog.QueueBuffer.Progress

/-!
# The queue at rest

With no call in flight the indices, the counters, the flags and the buffers follow from the number
of pushes and of pops (`AtRest`).  `~Buffer` destroys as many items as the counter says, from the
first slot on.  In a buffer that is held this is every item there is.  A buffer is deleted when its
last slot has been read, though, and then all of its items are destroyed exactly if the counter has
reached `Buffer::size` (`Emptied`, `atRest_and_emptied`).
-/

namespace ZephyrLog

namespace QueueBuffer

variable {T α : Type}

/-- No `push` and no `tryPop` is in flight. -/
def System.Quiet (s : System T α) : Prop :=
  s.NoPushInFlight ∧ ∃ result, s.consumer = .outside result

/-- What follows from the numbers of calls: all calls of `push` have returned, and `popped` has a
line for each `tryPop` that has returned true.  The buffers are numbered in the order of their
allocation, so that the deleted ones are those that have been read to the end, each deleted once. -/
structure System.AtRest (s : System T α) : Prop where
  writeIndex : s.queue.writeIndex.toNat = s.begun.length % Buffer.size
  readIndex : s.queue.readIndex.toNat = s.popped.length % Buffer.size
  length_buffers : s.queue.buffers.length =
    s.begun.length / Buffer.size - s.popped.length / Buffer.size + 1
  last : s.queue.buffers.getLast? = s.queue.currentWriteBuffer
  count : ∀ b ∈ s.queue.buffers, (s.queue.heap b).count.toNat =
    if s.queue.currentWriteBuffer = some b then s.begun.length % Buffer.size else Buffer.size
  written : ∀ b ∈ s.queue.buffers, ∀ i < Buffer.size,
    (s.Written b i ↔ i < (s.queue.heap b).count.toNat)
  constructed : ∀ b ∈ s.queue.buffers, ∀ i < Buffer.size,
    ((s.slot b i).isSome ↔ i < (s.queue.heap b).count.toNat)
  released : s.released = List.range (s.popped.length / Buffer.size)

/-- No item is left in a deleted buffer. -/
def System.Emptied (s : System T α) : Prop :=
  ∀ b ∈ s.released, ∀ i < Buffer.size, s.slot b i = none

/-! ## The number of pushes -/

/-- The calls are numbered in the order in which they begin. -/
def System.Numbered (s : System T α) : Prop :=
  s.begun.map Push.number = List.range s.begun.length

theorem Numbered.init : (System.init : System T α).Numbered := rfl

theorem Numbered.begin {s : System T α} (h : s.Numbered) {p : Push T α}
    (hp : p.number = s.begun.length) : (s.begin p).Numbered := by
  show (s.begun ++ [p]).map Push.number = List.range (s.begun ++ [p]).length
  rw [List.map_append, h, List.length_append, List.length_singleton, List.range_succ,
    List.map_singleton, hp]

theorem Numbered.step [DecidableEq T] {s s' : System T α} {l : Label T α} (h : s.Numbered)
    (hs : Step s l s') : s'.Numbered := by
  cases hs with
  | begin t a ht => exact Numbered.begin (s := s) h rfl
  | move b c hc hcell =>
    unfold System.advance
    split
    · exact h
    · exact h
  | _ => exact h

/-- With no push in flight every call has its claim. -/
theorem length_claims {s : System T α} (h : s.Numbered) (hh : History s)
    (hquiet : s.NoPushInFlight) : s.claims.length = s.begun.length := by
  have hnodup : s.begun.Nodup := by
    apply List.Nodup.of_map Push.number
    rw [h]
    exact List.nodup_range
  have hmem (p : Push T α) : p ∈ s.claims ↔ p ∈ s.begun := by
    refine ⟨hh.begun p, fun hp => (hh.accounted p hp).resolve_right ?_⟩
    rintro ⟨pc, hpc, -⟩
    rw [hquiet p.thread] at hpc
    cases hpc
  exact ((List.perm_ext_iff_of_nodup hh.nodup hnodup).2 hmem).length_eq

/-! ## What a step does to the items -/

/-- What a step does that deletes no buffer: it puts items into buffers that are held, or moves
lines out of them, and sets a flag where an item is. -/
structure Keeps (s s' : System T α) : Prop where
  released : s'.released = s.released
  slot : ∀ b i, s'.slot b i = s.slot b i ∨ b ∉ s.released ∧ (s'.slot b i).isSome
  written : ∀ b i, i < Buffer.size → s'.Written b i → s.Written b i ∨ (s'.slot b i).isSome

namespace Keeps

variable {s s' : System T α}

theorem of_heap (hreleased : s'.released = s.released) (hheap : s'.queue.heap = s.queue.heap) :
    Keeps s s' where
  released := hreleased
  slot := fun b i => .inl (congrArg (fun heap => (heap b).buffer i) hheap)
  written := fun b i _ hw => .inl (by rwa [System.Written, hheap] at hw)

theorem onBuffer {b : ℕ} {f : Buffer (Push T α) → Buffer (Push T α)}
    (hreleased : s'.released = s.released) (hheap : s'.queue.heap = (s.queue.onBuffer b f).heap)
    (hslot : ∀ i, (f (s.queue.heap b)).buffer i = s.slot b i ∨
      b ∉ s.released ∧ ((f (s.queue.heap b)).buffer i).isSome)
    (hwritten : ∀ i < Buffer.size, (f (s.queue.heap b)).isWritten i →
      s.Written b i ∨ ((f (s.queue.heap b)).buffer i).isSome) : Keeps s s' := by
  have hat (a : ℕ) : s'.queue.heap a = if a = b then f (s.queue.heap b) else s.queue.heap a := by
    rw [hheap, onBuffer_heap]
  refine ⟨hreleased, fun a i => ?_, fun a i hi hw => ?_⟩
  · unfold System.slot
    rw [hat]
    split
    · next hab => exact hab ▸ hslot i
    · exact .inl rfl
  · unfold System.Written at hw
    unfold System.slot
    rw [hat] at hw ⊢
    by_cases hab : a = b
    · subst hab
      rw [if_pos rfl] at hw ⊢
      exact hwritten i hi hw
    · rw [if_neg hab] at hw
      exact .inl hw

section Operations

variable [Fintype T] {t : T} {p : Push T α} {b w : ℕ}

/-- A slot whose flag is not set is in a buffer that is held. -/
theorem not_released_of_not_written (h : Protocol s) (hw : w < Buffer.size)
    (hn : ¬ s.Written b w) : b ∉ s.released :=
  fun hmem => hn (h.written_of_released hmem hw)

theorem construct (h : Protocol s) (ht : s.producers t = .pushing p (.construct b w)) :
    Keeps s (s.afterConstruct p b w) := by
  obtain ⟨rfl, hw⟩ := h.switching.pcs t p _ ht
  obtain ⟨-, -, hn, -⟩ := h.slots.pending t p w none (by rw [ht]; rfl)
  refine .onBuffer (f := (·.construct w p)) rfl rfl (fun i => ?_) fun i _ hi => .inl hi
  rw [Buffer.buffer_construct]
  split
  · exact .inr ⟨not_released_of_not_written h hw hn, rfl⟩
  · exact .inl rfl

theorem publish (h : Protocol s) (ht : s.producers t = .pushing p (.publish b w)) :
    Keeps s (s.setQueue (s.queue.onBuffer b (·.publish w))) := by
  obtain ⟨rfl, hw⟩ := h.switching.pcs t p _ ht
  obtain ⟨-, -, -, hslot⟩ := h.slots.pending t p w (some (.line p)) (by rw [ht]; rfl)
  refine .onBuffer (f := (·.publish w)) rfl rfl (fun i => .inl rfl) fun i _ hi => ?_
  rcases (Buffer.isWritten_publish _ _ _).1 hi with rfl | hi
  · exact .inr ((congrArg Option.isSome hslot).trans rfl)
  · exact .inl hi

omit [Fintype T] in
theorem countUp (s : System T α) (b : ℕ) :
    Keeps s (s.setQueue (s.queue.onBuffer b Buffer.countUp)) :=
  .onBuffer rfl rfl (fun _ => .inl rfl) fun _ hi hw => .inl ((Buffer.isWritten_countUp _ hi).1 hw)

theorem move (h : Protocol s) (hc : s.consumer = .move b) (c : Cell (Push T α)) :
    Keeps s (s.afterMove b c) := by
  have hat := h.reading.atConsumer
  rw [hc] at hat
  have hnot : b ∉ s.released := fun hmem =>
    Nat.ne_of_lt (Protocol.lt_of_released h.switching hmem) hat.2.1
  refine .onBuffer (f := (·.moveOut s.queue.readIndex.toNat)) rfl rfl (fun i => ?_)
    fun i _ hi => .inl hi
  by_cases hi : i = s.queue.readIndex.toNat
  · subst hi
    exact .inr ⟨hnot, by simp [Buffer.moveOut]⟩
  · exact .inl (Buffer.buffer_moveOut _ hi)

omit [Fintype T] in
/-- Only the items, the flags and the deleted buffers count. -/
theorem congr {s₁ s₂ : System T α} (h : Keeps s s₁) (hreleased : s₂.released = s₁.released)
    (hheap : s₂.queue.heap = s₁.queue.heap) : Keeps s s₂ where
  released := hreleased.trans h.released
  slot := by
    intro b i
    unfold System.slot
    rw [hheap]
    exact h.slot b i
  written := by
    intro b i hi hw
    unfold System.Written at hw
    rw [hheap] at hw
    unfold System.slot
    rw [hheap]
    exact h.written b i hi hw

end Operations

end Keeps

theorem heap_advance (s : System T α) :
    s.advance.queue.heap = s.queue.heap ∧ s.advance.released = s.released := by
  unfold System.advance
  split
  · exact ⟨rfl, rfl⟩
  · exact ⟨rfl, rfl⟩

theorem countedAtPop_of_ne {s : System T α} {c : Consumer} {l : Label T α} (hc : s.consumer = c)
    (hne : c ≠ .pop) : CountedAtPop s l :=
  fun _ hpop => absurd (hc.symm.trans hpop) hne

/-- Every step but `m_buffers.pop()` keeps the items. -/
theorem keeps_or_pop [Fintype T] [DecidableEq T] {s s' : System T α} {l : Label T α}
    (h : Protocol s) (hs : Step s l s') :
    (CountedAtPop s l ∧ Keeps s s') ∨
      ∃ b rest, l = .consume ∧ s.consumer = .pop ∧ s.queue.buffers = b :: rest ∧
        s' = s.afterPop b rest := by
  have hother {l : Label T α} (hl : l ≠ .consume) : CountedAtPop s l := fun heq => absurd heq hl
  cases hs with
  | pop b rest hc hb => exact .inr ⟨b, rest, rfl, hc, hb, rfl⟩
  | construct t p b w ht => exact .inl ⟨hother (by simp), (Keeps.construct h ht).congr rfl rfl⟩
  | publish t p b w ht => exact .inl ⟨hother (by simp), (Keeps.publish h ht).congr rfl rfl⟩
  | countLast t p b ht hfull | count t p b ht hfull =>
    exact .inl ⟨hother (by simp), (Keeps.countUp s b).congr rfl rfl⟩
  | alloc t p ht =>
    exact .inl ⟨hother (by simp), .of_heap rfl (h.slots.heap_alloc h.switching ht)⟩
  | move b c hc hcell =>
    obtain ⟨hheap, hreleased⟩ := heap_advance (s.afterMove b c)
    exact .inl ⟨countedAtPop_of_ne hc (by simp), (Keeps.move h hc c).congr hreleased hheap⟩
  | wait hc =>
    refine .inl ⟨fun _ hpop => ?_, .of_heap rfl rfl⟩
    rw [hpop] at hc
    exact absurd hc (by simp)
  | front hc | noFront hc | unlockPop hc =>
    exact .inl ⟨countedAtPop_of_ne hc (by simp), .of_heap rfl rfl⟩
  | lockFront hc hflag | lockPop hc hflag =>
    exact .inl ⟨countedAtPop_of_ne hc (by simp), .of_heap rfl rfl⟩
  | unlockFront b hc =>
    exact .inl ⟨countedAtPop_of_ne hc (by simp), .of_heap rfl rfl⟩
  | loadWritten b hc hw | loadEmpty b hc hw =>
    exact .inl ⟨countedAtPop_of_ne hc (by simp), .of_heap rfl rfl⟩
  | _ => exact .inl ⟨hother (by simp), .of_heap rfl rfl⟩

/-- In a buffer that is held, a slot whose flag is set has an item. -/
def System.Constructed (s : System T α) : Prop :=
  ∀ b ∉ s.released, ∀ i < Buffer.size, s.Written b i → (s.slot b i).isSome

theorem Constructed.init : (System.init : System T α).Constructed :=
  fun b _ i _ hw => absurd hw (not_written_init b i)

section Items

variable {s s' : System T α} {b : ℕ} {rest : List ℕ}

theorem slot_afterPop [DecidableEq T] (s : System T α) (b : ℕ) (rest : List ℕ) (a i : ℕ) :
    (s.afterPop b rest).slot a i =
      if a = b ∧ i < (s.queue.heap b).count.toNat then none else s.slot a i := by
  unfold System.slot System.afterPop
  rw [onBuffer_heap]
  by_cases ha : a = b
  · subst ha
    simp only [true_and, if_true, Buffer.destroy]
  · simp only [ha, false_and, if_false]

theorem Constructed.keeps (h : s.Constructed) (hk : Keeps s s') : s'.Constructed := by
  intro b hb i hi hw
  rw [hk.released] at hb
  rcases hk.slot b i with hslot | ⟨-, hsome⟩
  · rcases hk.written b i hi hw with hold | hsome
    · rw [hslot]
      exact h b hb i hi hold
    · exact hsome
  · exact hsome

theorem Constructed.afterPop [DecidableEq T] (h : s.Constructed) :
    (s.afterPop b rest).Constructed := by
  intro a ha i hi hw
  have hne : ¬ (a = b ∧ i < (s.queue.heap b).count.toNat) := by
    rintro ⟨rfl, -⟩
    exact ha (List.mem_append_right _ List.mem_cons_self)
  rw [slot_afterPop, if_neg hne]
  exact h a (fun hmem => ha (List.mem_append_left _ hmem)) i hi
    ((written_afterPop s b rest a i).1 hw)

theorem Emptied.keeps (hk : Keeps s s') : s'.Emptied ↔ s.Emptied := by
  have hslot {b : ℕ} (hb : b ∈ s.released) (i : ℕ) : s'.slot b i = s.slot b i :=
    (hk.slot b i).resolve_right fun h => h.1 hb
  unfold System.Emptied
  rw [hk.released]
  constructor
  · exact fun h b hb i hi => (hslot hb i).symm.trans (h b hb i hi)
  · exact fun h b hb i hi => (hslot hb i).trans (h b hb i hi)

variable [Fintype T]

theorem Switching.count_le (h : Switching s) (b : ℕ) :
    (s.queue.heap b).count.toNat ≤ Buffer.size := by
  rcases Nat.lt_trichotomy b s.switches with hlt | rfl | hgt
  · exact (h.finished b hlt).le
  · have hcounted := h.counted
    have hle := claimed_le_size s
    show s.counter ≤ Buffer.size
    omega
  · have hzero : (s.queue.heap b).count = 0 := h.unused b hgt Buffer.size
    rw [hzero]
    exact Nat.zero_le _

/-- The front buffer at `m_buffers.pop()`: it is held, and every slot of it has an item. -/
theorem Protocol.at_pop (h : Protocol s) (hcons : s.Constructed) (hc : s.consumer = .pop)
    (hb : s.queue.buffers.head? = some b) :
    b ∉ s.released ∧ ∀ i < Buffer.size, (s.slot b i).isSome := by
  have hnot : b ∉ s.released := fun hmem =>
    Nat.ne_of_lt (Protocol.lt_of_released h.switching hmem) (Protocol.front_eq h.switching hb)
  exact ⟨hnot, fun i hi => hcons b hnot i hi (h.written_at_pop hc hb hi)⟩

theorem Constructed.step [DecidableEq T] (h : s.Constructed) (hp : Protocol s) {l : Label T α}
    (hs : Step s l s') : s'.Constructed := by
  rcases keeps_or_pop hp hs with ⟨-, hk⟩ | ⟨b, rest, -, -, -, rfl⟩
  · exact Constructed.keeps h hk
  · exact Constructed.afterPop h

/-! ## Deleted buffers -/

/-- The items with an index from the counter on stay where they are. -/
theorem Emptied.afterPop [DecidableEq T] (hp : Protocol s) (hcons : s.Constructed)
    (hc : s.consumer = .pop) (hb : s.queue.buffers = b :: rest) :
    (s.afterPop b rest).Emptied ↔ s.Emptied ∧ CountedAtPop s .consume := by
  obtain ⟨hnot, hitems⟩ := hp.at_pop hcons hc (b := b) (by rw [hb]; rfl)
  have hold {a : ℕ} (ha : a ∈ s.released) (i : ℕ) :
      (s.afterPop b rest).slot a i = s.slot a i := by
    rw [slot_afterPop, if_neg]
    rintro ⟨rfl, -⟩
    exact hnot ha
  constructor
  · intro h
    refine ⟨fun a ha i hi => ?_, fun _ _ a ha => ?_⟩
    · rw [← hold ha]
      exact h a (List.mem_append_left _ ha) i hi
    · rw [hb, List.head?_cons, Option.some.injEq] at ha
      subst ha
      -- otherwise the item at the counter's value has been left
      by_contra hne
      have hlt := lt_of_le_of_ne (hp.switching.count_le b) hne
      have hnone := h b (List.mem_append_right _ List.mem_cons_self) _ hlt
      rw [slot_afterPop, if_neg (fun hi => Nat.lt_irrefl _ hi.2)] at hnone
      have hsome := hitems _ hlt
      rw [hnone] at hsome
      cases hsome
  · rintro ⟨h, hcount⟩ a ha i hi
    rcases List.mem_append.1 ha with ha | ha
    · rw [hold ha]
      exact h a ha i hi
    · rw [List.mem_singleton.1 ha, slot_afterPop, if_pos]
      exact ⟨rfl, by rwa [hcount rfl hc b (by rw [hb]; rfl)]⟩

theorem Emptied.step [DecidableEq T] (hp : Protocol s) (hcons : s.Constructed) {l : Label T α}
    (hs : Step s l s') : s'.Emptied ↔ s.Emptied ∧ CountedAtPop s l := by
  rcases keeps_or_pop hp hs with ⟨hl, hk⟩ | ⟨b, rest, rfl, hc, hb, rfl⟩
  · rw [Emptied.keeps hk]
    exact (and_iff_left hl).symm
  · exact Emptied.afterPop hp hcons hc hb

/-! ## At rest -/

theorem total_of_quiet (hquiet : s.NoPushInFlight) (f : Pc → ℕ) : s.total f = 0 :=
  Threads.total_eq_zero_iff.2 fun t => by
    rw [hquiet t]
    rfl

/-- The shared memory with no push in flight and the index of the next claim below the end. -/
structure Settled (s : System T α) : Prop where
  writeIndex_lt : s.queue.writeIndex.toNat < Buffer.size
  claims_length : s.claims.length = s.switches * Buffer.size + s.queue.writeIndex.toNat
  counter : s.counter = s.queue.writeIndex.toNat
  layout : s.Layout (s.switches + 1) s.switches (s.switches + 1)

theorem Settled.of_quiet {es : List (SwitchEvent T α)} (h : Switching s) (hsw : Switched s es)
    (hquiet : s.NoPushInFlight) : Settled s := by
  have hzero := total_of_quiet hquiet
  have hcounted := h.counted
  have hindex := h.writeIndex_le
  rw [hzero] at hcounted hindex
  -- a full buffer would have a thread that switches
  have hfull : s.counter ≠ Buffer.size := by
    intro hfull
    have harmed := hsw.armed hfull
    rw [hzero] at harmed
    exact Nat.lt_irrefl 0 harmed
  have hclaimed : s.claimed = s.queue.writeIndex.toNat := Nat.min_eq_left hindex
  have hne : s.queue.writeIndex.toNat ≠ Buffer.size := by
    rwa [← hclaimed, ← hcounted]
  exact
    { writeIndex_lt := by omega
      claims_length := by
        rw [← hclaimed]
        exact h.claims_length
      counter := by omega
      layout := h.settled (hzero _) }

/-- The quotient and the remainder of a position. -/
theorem position_divMod {n b i : ℕ} (h : n = b * Buffer.size + i) (hi : i < Buffer.size) :
    n / Buffer.size = b ∧ n % Buffer.size = i := by
  subst h
  constructor
  · rw [Nat.mul_comm, Nat.mul_add_div size_pos, Nat.div_eq_of_lt hi, Nat.add_zero]
  · exact Nat.mul_add_mod_of_lt hi

omit [Fintype T] in
/-- The buffers that are held, one after the other up to the current write buffer. -/
theorem Settled.mem_buffers (h : Settled s) {b : ℕ} (hb : b ∈ s.queue.buffers) :
    b ≤ s.switches ∧ (s.queue.currentWriteBuffer = some b ↔ b = s.switches) := by
  have hmem : b ∈ List.range (s.switches + 1) := by
    rw [← h.layout.enqueued]
    exact List.mem_append_right _ hb
  refine ⟨Nat.le_of_lt_succ (List.mem_range.1 hmem), ?_⟩
  rw [h.layout.current, Option.some.injEq]
  exact eq_comm

/-- A buffer that is held is not among the deleted ones. -/
theorem not_released (h : Switching s) {b : ℕ} (hb : b ∈ s.queue.buffers) : b ∉ s.released := by
  obtain ⟨e, -, he⟩ := Protocol.enqueued h
  have hnodup : (s.released ++ s.queue.buffers).Nodup := by
    rw [he]
    exact List.nodup_range
  exact fun hmem => List.disjoint_of_nodup_append hnodup hmem hb

theorem Protocol.slots_at_rest (h : Protocol s) (hset : Settled s) (hquiet : s.NoPushInFlight)
    (hcons : s.Constructed) {b i : ℕ} (hb : b ∈ s.queue.buffers) (hi : i < Buffer.size) :
    (s.Written b i ↔ i < (s.queue.heap b).count.toNat) ∧
      ((s.slot b i).isSome ↔ i < (s.queue.heap b).count.toNat) := by
  have hwritten (hw : s.Written b i) : (s.slot b i).isSome :=
    hcons b (not_released h.switching hb) i hi hw
  rcases Nat.lt_or_eq_of_le (hset.mem_buffers hb).1 with hlt | rfl
  · have hw := h.slots.finished b hlt i hi
    rw [h.switching.finished b hlt]
    exact ⟨iff_of_true hw hi, iff_of_true (hwritten hw) hi⟩
  · have hcount : (s.queue.heap s.switches).count.toNat = s.queue.writeIndex.toNat := hset.counter
    have hclaimed : s.claimed = s.queue.writeIndex.toNat := Nat.min_eq_left hset.writeIndex_lt.le
    rw [hcount, ← hclaimed]
    rcases Nat.lt_or_ge i s.claimed with hlt | hge
    · have hw : s.Written s.switches i := by
        apply h.written_of_quiet hquiet hi
        rw [h.switching.claims_length, position]
        omega
      exact ⟨iff_of_true hw hlt, iff_of_true (hwritten hw) hlt⟩
    · obtain ⟨hn, hnone⟩ := h.slots.unclaimed i hge hi
      refine ⟨iff_of_false hn (Nat.not_lt_of_le hge), iff_of_false ?_ (Nat.not_lt_of_le hge)⟩
      rw [hnone]
      exact Bool.false_ne_true

theorem Settled.atRest (hset : Settled s) (h : Protocol s) (hnum : s.Numbered)
    (hcons : s.Constructed) (hquiet : s.Quiet) : s.AtRest := by
  obtain ⟨hpush, result, hout⟩ := hquiet
  have hP := length_claims hnum h.history hpush
  obtain ⟨hpushDiv, hpushMod⟩ := position_divMod (hP ▸ hset.claims_length) hset.writeIndex_lt
  have hC : s.popped.length =
      s.released.length * Buffer.size + s.queue.readIndex.toNat := by
    rw [h.reading.popped_length, hout]
    exact Nat.add_zero _
  obtain ⟨hpopDiv, hpopMod⟩ := position_divMod hC h.reading.readIndex_lt
  have hlength := congrArg List.length hset.layout.enqueued
  rw [List.length_append, List.length_range] at hlength
  have hle : s.released.length ≤ s.switches := by
    rw [← hpushDiv, ← hpopDiv, ← hP]
    exact Nat.div_le_div_right h.reading.popped_length_le
  have hlast := congrArg List.getLast? hset.layout.enqueued
  rw [List.getLast?_append, List.range_succ, List.getLast?_concat] at hlast
  exact
    { writeIndex := hpushMod.symm
      readIndex := hpopMod.symm
      length_buffers := by
        rw [hpushDiv, hpopDiv]
        omega
      last := by
        rw [hset.layout.current]
        cases hb : s.queue.buffers.getLast? with
        | none =>
          rw [List.getLast?_eq_none_iff.1 hb, List.length_nil] at hlength
          omega
        | some b =>
          rw [hb] at hlast
          exact hlast
      count := by
        intro b hb
        obtain ⟨hble, hcur⟩ := hset.mem_buffers hb
        rw [hpushMod]
        split
        · next hc =>
          rw [hcur.1 hc]
          exact hset.counter
        · next hc =>
          exact h.switching.finished b (lt_of_le_of_ne hble fun hb => hc (hcur.2 hb))
      written := fun b hb i hi => (h.slots_at_rest hset hpush hcons hb hi).1
      constructed := fun b hb i hi => (h.slots_at_rest hset hpush hcons hb hi).2
      released := by
        rw [hpopDiv]
        exact Protocol.released_eq h.switching }

end Items

/-! ## Runs -/

/-- `m_writeIndex` does not wrap and no allocation throws. -/
def Unfailing (s : System T α) (l : Label T α) : Prop := NoWrap s l ∧ Allocates s l

section Runs

variable [Fintype T] [DecidableEq T] {s s' : System T α} {ls : List (Label T α)}

/-- With fewer than `2 ^ 32 - Buffer::size` threads only the allocation can fail. -/
theorem obeys_unfailing (hcard : Fintype.card T + Buffer.size < 2 ^ 32)
    (halloc : ∀ t, .badAlloc t ∉ ls) : (machine T α).Obeys (fun _ => Unfailing) ls := by
  intro ls' l s t hpre hs ht
  have hreach : (machine T α).Reachable Machine.anyStep s :=
    .of_exec ls' (fun _ _ _ => trivial) hs
  refine ⟨(Protocol.of_card hcard hreach).switching.noWrap hcard l, ?_⟩
  rintro t rfl
  exact halloc t (hpre.subset (List.mem_append_right _ List.mem_cons_self))

theorem items_of_reachable (h : (machine T α).Reachable Unfailing s) :
    Protocol s ∧ s.Constructed := by
  refine h.invariant (P := fun s => Protocol s ∧ s.Constructed) ⟨.init, Constructed.init⟩ ?_
  exact fun s l s' hinv hg hs =>
    ⟨hinv.1.step hg.1 (Step.of_step hs), Constructed.step hinv.2 hinv.1 (Step.of_step hs)⟩

omit [Fintype T] in
theorem numbered_of_reachable (h : (machine T α).Reachable Unfailing s) : s.Numbered :=
  h.invariant Numbered.init fun _ _ _ hnum _ hs => Numbered.step hnum (Step.of_step hs)

theorem atRest_of_reachable (h : (machine T α).Reachable Unfailing s) (hquiet : s.Quiet) :
    s.AtRest := by
  obtain ⟨hp, hcons⟩ := items_of_reachable h
  obtain ⟨es, hes⟩ := h.record switchEvents
  obtain ⟨-, hsw⟩ := Switched.of_reachable (fun _ _ _ hg => hg) hes
  have hset := Settled.of_quiet hp.switching hsw hquiet.1
  exact hset.atRest hp (numbered_of_reachable h) hcons hquiet

/-- An item that is left in a deleted buffer stays there. -/
theorem emptied_of_reaches (h : (machine T α).Reachable Unfailing s)
    (hr : (machine T α).Reaches Unfailing s s') (hempty : s'.Emptied) : s.Emptied := by
  induction hr with
  | refl => exact hempty
  | tail l hr _ hs ih =>
    obtain ⟨hp, hcons⟩ := items_of_reachable (h.trans hr)
    exact ih ((Emptied.step hp hcons (Step.of_step hs)).1 hempty).1

end Runs

/-- After every run in which allocation succeeds: if no call is in flight, the indices, the buffers,
the counters and the flags are those that the numbers of pushes and pops give, and each buffer read
to the end has been deleted once; a deletion destroys nothing but items; and no item has been left
in a deleted buffer exactly if the counter had reached `Buffer::size` at each deletion. -/
theorem atRest_and_emptied [Fintype T] [DecidableEq T] {ls : List (Label T α)} {s : System T α}
    (hs : (machine T α).exec .init ls = some s)
    (hls : (machine T α).Obeys (fun _ => Unfailing) ls) :
    (s.Quiet → s.AtRest) ∧
      (s.consumer = .pop → ∀ b, s.queue.buffers.head? = some b →
        ∀ i < (s.queue.heap b).count.toNat, (s.slot b i).isSome) ∧
      (s.Emptied ↔ (machine T α).Obeys (fun _ => CountedAtPop) ls) := by
  have h := hls.reachable hs
  obtain ⟨hp, hcons⟩ := items_of_reachable h
  refine ⟨atRest_of_reachable h, fun hc b hb i hi => ?_, ?_⟩
  · exact (hp.at_pop hcons hc hb).2 i (lt_of_lt_of_le hi (hp.switching.count_le b))
  · refine Machine.iff_obeys (fun b hb => nomatch hb) (fun s l t hr _ ht => ?_) hls hs
    obtain ⟨hp, hcons⟩ := items_of_reachable hr
    exact Emptied.step hp hcons (Step.of_step ht)

/-- Two pushes at the same time, with one `tryPop` before the second has returned and one after
it. -/
theorem atRest_and_emptied_two : ∃ (ls : List (Label Bool ℕ)) (s : System Bool ℕ),
    (machine Bool ℕ).exec .init ls = some s ∧ s.popped.length = 2 ∧ s.AtRest ∧
      (machine Bool ℕ).Obeys (fun _ => CountedAtPop) ls := by
  let ls : List (Label Bool ℕ) :=
    [.push false 7, .push true 8, .produce true] ++ List.replicate 4 (.produce false) ++
      List.replicate 4 (.produce true) ++ [.tryPop, .consume, .produce false] ++
      List.replicate 4 .consume ++ [.tryPop] ++ List.replicate 2 .consume
  obtain ⟨s, hs, hfin⟩ := Option.map_eq_some_iff.1 (show ((machine Bool ℕ).exec .init ls).map
      (fun s => (s.producers false, s.producers true, s.consumer, s.popped.length, s.released)) =
        some (.idle, .idle, .outside (some true), 2, []) by decide +kernel)
  simp only [Prod.mk.injEq] at hfin
  obtain ⟨hfalse, htrue, hout, hlength, hreleased⟩ := hfin
  have hls : (machine Bool ℕ).Obeys (fun _ => Unfailing) ls :=
    obeys_unfailing (by decide) (by simp [ls])
  obtain ⟨hrest, -, hemptied⟩ := atRest_and_emptied hs hls
  refine ⟨ls, s, hs, hlength, hrest ⟨Bool.rec hfalse htrue, _, hout⟩, hemptied.1 fun b hb => ?_⟩
  rw [hreleased] at hb
  cases hb

/-! ## An item that is never destroyed -/

/-- The only producer counts its line, switches if the buffer is full, and returns. -/
theorem exists_quiet {s : System Unit Unit} {p : Push Unit Unit} {b : ℕ} {result : Option Bool}
    (hp : s.producers () = .pushing p (.count b)) (hc : s.consumer = .outside result)
    (hflag : s.queue.flag = false) :
    ∃ s', (machine Unit Unit).Reaches Unfailing s s' ∧ s'.Quiet := by
  have hkeep {s : System Unit Unit} {pc : Pc} (ht : s.producers () = .pushing p pc)
      (hpc : pc ≠ .claim) : Unfailing s (.produce ()) :=
    (keeping_produce ht fun h => absurd h hpc).1
  let s₁ := s.setQueue (s.queue.onBuffer b .countUp)
  have hidle (s : System Unit Unit) : (s.leave ()).NoPushInFlight := by
    intro t
    show Function.update s.producers () Producer.idle t = _
    exact Function.update_self _ _ _
  by_cases hfull : ((s.queue.heap b).count + 1).toNat = Buffer.size
  · let s₂ := s₁.goto () p .lock
    let s₃ := (s₂.setQueue s₂.queue.acquire).goto () p .alloc
    let s₄ := (s₃.setQueue s₃.queue.alloc).goto () p (.setWriteBuffer s₃.queue.allocated)
    let s₅ := (s₄.setQueue (s₄.queue.setWriteBuffer s₃.queue.allocated)).goto () p
      (.enqueue s₃.queue.allocated)
    let s₆ := (s₅.setQueue (s₅.queue.enqueue s₃.queue.allocated)).goto () p .resetIndex
    let s₇ := s₆.afterReset.goto () p .unlock
    have hp₂ : s₂.producers () = .pushing p .lock := producers_goto _ _ _ _
    have hp₃ : s₃.producers () = .pushing p .alloc := producers_goto _ _ _ _
    have hp₄ : s₄.producers () = .pushing p (.setWriteBuffer s₃.queue.allocated) :=
      producers_goto _ _ _ _
    have hp₅ : s₅.producers () = .pushing p (.enqueue s₃.queue.allocated) := producers_goto _ _ _ _
    have hp₆ : s₆.producers () = .pushing p .resetIndex := producers_goto _ _ _ _
    have hp₇ : s₇.producers () = .pushing p .unlock := producers_goto _ _ _ _
    have h₂ : (machine Unit Unit).step s (.produce ()) = some s₂ := by
      rw [step_produce hp, System.produce, if_pos hfull]
    have h₃ : (machine Unit Unit).step s₂ (.produce ()) = some s₃ := by
      have hflag₂ : s₂.queue.flag = false := hflag
      rw [step_produce hp₂, System.produce, hflag₂]
      rfl
    have hr₄ : (machine Unit Unit).Reaches Unfailing s s₄ :=
      .tail _ (.tail _ (.single _ (hkeep hp (by simp)) h₂) (hkeep hp₂ (by simp)) h₃)
        (hkeep hp₃ (by simp)) (step_produce hp₃)
    have hr₇ : (machine Unit Unit).Reaches Unfailing s s₇ :=
      .tail _ (.tail _ (.tail _ hr₄ (hkeep hp₄ (by simp)) (step_produce hp₄))
        (hkeep hp₅ (by simp)) (step_produce hp₅)) (hkeep hp₆ (by simp)) (step_produce hp₆)
    exact ⟨_, .tail _ hr₇ (hkeep hp₇ (by simp)) (step_produce hp₇), hidle _, result, hc⟩
  · have h₂ : (machine Unit Unit).step s (.produce ()) = some (s₁.leave ()) := by
      rw [step_produce hp, System.produce, if_neg hfull]
    exact ⟨_, .single _ (hkeep hp (by simp)) h₂, hidle _, result, hc⟩

/-- A buffer is deleted while the counter is below `Buffer::size`; when both calls have returned, an
item is left in it. -/
theorem exists_item_left : ∃ s : System Unit Unit,
    (machine Unit Unit).Reachable Unfailing s ∧ s.Quiet ∧
      ∃ b ∈ s.released, ∃ i < Buffer.size, s.slot b i ≠ none := by
  obtain ⟨s, hs, hc, hb, p, hp⟩ := exists_at_pop
  have hreach : (machine Unit Unit).Reachable Unfailing s := hs.mono fun _ _ hg => hg.1
  let s₁ := s.afterPop 0 []
  let s₂ := s₁.await s₁.queue.release (.outside (some true))
  have h₁ : (machine Unit Unit).step s .consume = some s₁ := by
    simp [machine, System.step, System.consume, hc, hb, s₁]
  have h₂ : (machine Unit Unit).step s₁ .consume = some s₂ := rfl
  obtain ⟨s₃, hr, hquiet⟩ := exists_quiet (s := s₂) hp rfl rfl
  have hr₁ : (machine Unit Unit).Reachable Unfailing s₁ := .tail _ hreach (ordinary_consume s) h₁
  have hr₃ : (machine Unit Unit).Reaches Unfailing s₁ s₃ :=
    (Machine.Reaches.single .consume (ordinary_consume s₁) h₂).trans hr
  obtain ⟨hprot, hcons⟩ := items_of_reachable hreach
  have hcount : ¬ CountedAtPop s .consume := by
    intro hcount
    have hno := (hprot.not_accessing_iff hc (b := 0) (by rw [hb]; rfl)).2
      (hcount rfl hc 0 (by rw [hb]; rfl))
    exact hno ⟨(), p, .inr (.inr (.inr hp))⟩
  have hleft : ¬ s₃.Emptied := fun hempty =>
    hcount ((Emptied.afterPop hprot hcons hc hb).1 (emptied_of_reaches hr₁ hr₃ hempty)).2
  refine ⟨s₃, hr₁.trans hr₃, hquiet, ?_⟩
  simpa [System.Emptied] using hleft

end QueueBuffer

end ZephyrLog
