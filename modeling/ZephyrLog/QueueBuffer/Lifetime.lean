import ZephyrLog.QueueBuffer.Protocol

/-!
# The lifetime of a buffer

The consumer deletes a buffer when it has read its last slot, which it learns from the slot's flag;
the producers count a slot in `m_writeState[size]` after they have set its flag.  So a buffer may be
deleted while the thread that is to count its last line still has that access before it.  A deletion
is safe exactly when the counter has reached `Buffer::size`.
-/

namespace ZephyrLog

namespace QueueBuffer

variable {T α : Type}

/-- Some push is still to access the buffer `b`: it has the buffer's address, or an index and is to
load the address. -/
def System.Accessing (s : System T α) (b : ℕ) : Prop :=
  ∃ t p, (∃ w, s.producers t = .pushing p (.load w) ∧ s.queue.currentWriteBuffer = some b) ∨
    (∃ w, s.producers t = .pushing p (.construct b w)) ∨
    (∃ w, s.producers t = .pushing p (.publish b w)) ∨ s.producers t = .pushing p (.count b)

/-- No push is still to access a deleted buffer. -/
def System.NoDangling (s : System T α) : Prop := ∀ b ∈ s.released, ¬ s.Accessing b

/-- When `m_buffers.pop()` deletes a buffer, every line of it has been counted. -/
def CountedAtPop (s : System T α) (l : Label T α) : Prop :=
  l = .consume → s.consumer = .pop → ∀ b, s.queue.buffers.head? = some b →
    (s.queue.heap b).count.toNat = Buffer.size

section Lifetime

variable [Fintype T] {s s' : System T α} {b : ℕ}

/-- A buffer that a push is to access is the one being written, and not all of it is counted. -/
theorem Switching.of_accessing (h : Switching s) (hb : s.Accessing b) :
    b = s.switches ∧ s.counter < Buffer.size := by
  obtain ⟨t, p, ⟨w, ht, hcur⟩ | ⟨w, ht⟩ | ⟨w, ht⟩ | ht⟩ := hb
  · rw [h.current ht, Option.some.injEq] at hcur
    exact ⟨hcur.symm, h.counter_lt ht rfl⟩
  · exact ⟨(h.pcs t p _ ht).1, h.counter_lt ht rfl⟩
  · exact ⟨(h.pcs t p _ ht).1, h.counter_lt ht rfl⟩
  · exact ⟨h.pcs t p _ ht, h.counter_lt ht rfl⟩

/-- While a claimed line of the buffer being written is not counted, a push is to access it. -/
theorem Switching.accessing (h : Switching s) (hlt : s.counter < s.claimed) :
    s.Accessing s.switches := by
  have hc := h.counted
  obtain ⟨t, p, pc, hx, ht⟩ := exists_pushing_of_total_pos
    (show 0 < s.total Pc.outstanding by omega)
  have hat := h.pcs t p pc hx
  cases pc with
  | load w => exact ⟨t, p, .inl ⟨w, hx, h.current hx⟩⟩
  | construct b w => exact ⟨t, p, .inr (.inl ⟨w, by rw [hx, hat.1]⟩)⟩
  | publish b w => exact ⟨t, p, .inr (.inr (.inl ⟨w, by rw [hx, hat.1]⟩))⟩
  | count b => exact ⟨t, p, .inr (.inr (.inr (by rw [hx, (show b = s.switches from hat)])))⟩
  | _ => exact absurd ht (Nat.lt_irrefl 0)

/-- The deletion of a buffer is safe exactly when all its lines have been counted. -/
theorem Protocol.not_accessing_iff (h : Protocol s) (hc : s.consumer = .pop)
    (hb : s.queue.buffers.head? = some b) :
    ¬ s.Accessing b ↔ (s.queue.heap b).count.toNat = Buffer.size := by
  have hwritten (i : ℕ) (hi : i < Buffer.size) : s.Written b i := h.written_at_pop hc hb hi
  rcases Nat.lt_trichotomy b s.switches with hlt | rfl | hgt
  · have hcount := h.switching.finished b hlt
    refine iff_of_true (fun hacc => ?_) hcount
    exact Nat.ne_of_lt hlt (h.switching.of_accessing hacc).1
  · have hclaimed : s.claimed = Buffer.size := by
      refine Nat.le_antisymm (claimed_le_size s) (Nat.le_of_not_lt fun hlt => ?_)
      exact (h.slots.unclaimed _ (Nat.le_refl _) hlt).1 (hwritten _ hlt)
    constructor
    · intro hno
      refine Nat.le_antisymm ?_ (Nat.le_of_not_lt fun hlt => hno (h.switching.accessing ?_))
      · have hcounted := h.switching.counted
        show s.counter ≤ _
        omega
      · change s.counter < Buffer.size at hlt
        omega
    · intro hcount hacc
      have hlt := (h.switching.of_accessing hacc).2
      change s.counter = Buffer.size at hcount
      omega
  · exact absurd (hwritten 0 size_pos) (h.switching.not_isWritten hgt 0)

/-- Every deleted buffer is fully counted. -/
def System.ReleasedCounted (s : System T α) : Prop :=
  ∀ b ∈ s.released, (s.queue.heap b).count.toNat = Buffer.size

theorem Protocol.noDangling (h : Protocol s) (hr : s.ReleasedCounted) : s.NoDangling := by
  intro b hb hacc
  obtain ⟨rfl, hlt⟩ := h.switching.of_accessing hacc
  exact Nat.ne_of_lt hlt (hr _ hb)

variable [DecidableEq T]

omit [Fintype T] [DecidableEq T] in
/-- An operation that deletes no buffer and keeps the counters of the deleted ones. -/
theorem ReleasedCounted.congr (hr : s.ReleasedCounted) (hreleased : s'.released = s.released)
    (hcount : ∀ b ∈ s.released, (s'.queue.heap b).count = (s.queue.heap b).count) :
    s'.ReleasedCounted := by
  intro b hb
  rw [hreleased] at hb
  rw [hcount b hb]
  exact hr b hb

theorem ReleasedCounted.step (hr : s.ReleasedCounted) (h : Protocol s) {l : Label T α}
    (hpop : CountedAtPop s l) (hs : Step s l s') : s'.ReleasedCounted := by
  have hcountUp (t : T) (p : Push T α) (b : ℕ) (ht : s.producers t = .pushing p (.count b)) :
      ∀ c ∈ s.released, ((s.queue.onBuffer b Buffer.countUp).heap c).count =
        (s.queue.heap c).count := by
    intro c hc
    rw [onBuffer_heap, if_neg]
    rintro rfl
    exact h.noDangling hr c hc ⟨t, p, .inr (.inr (.inr ht))⟩
  cases hs with
  | construct t p b w ht =>
    exact congr (s := s) hr rfl fun c _ =>
      onBuffer_view Buffer.count (q := s.queue) (f := (·.construct w p)) rfl c
  | publish t p b w ht =>
    exact congr (s := s) hr rfl fun c _ =>
      onBuffer_view Buffer.count (q := s.queue) (f := (·.publish w))
        (Buffer.count_publish _ (h.switching.pcs t p _ ht).2) c
  | countLast t p b ht hfull => exact congr (s := s) hr rfl (hcountUp t p b ht)
  | count t p b ht hfull => exact congr (s := s) hr rfl (hcountUp t p b ht)
  | alloc t p ht =>
    refine congr (s := s) hr rfl fun c _ => ?_
    exact congrArg (fun heap => Buffer.count (heap c)) (h.slots.heap_alloc h.switching ht)
  | move b c hc hcell =>
    have h₁ : (s.afterMove b c).ReleasedCounted := congr (s := s) hr rfl fun a _ =>
      onBuffer_view Buffer.count (q := s.queue) (f := (·.moveOut s.queue.readIndex.toNat)) rfl a
    unfold System.advance
    split
    · exact congr (s := s.afterMove b c) h₁ rfl fun _ _ => rfl
    · exact congr (s := s.afterMove b c) h₁ rfl fun _ _ => rfl
  | pop b rest hc hb =>
    intro c hmem
    have hcount := hpop rfl hc b (by rw [hb]; rfl)
    refine (congrArg BitVec.toNat (onBuffer_view Buffer.count (q := s.queue)
      (f := Buffer.destroy) rfl c)).trans ?_
    rcases List.mem_append.1 hmem with hmem | hmem
    · exact hr c hmem
    · rw [List.mem_singleton.1 hmem]
      exact hcount
  | _ => exact congr (s := s) hr rfl fun _ _ => rfl

end Lifetime

/-! ## A buffer deleted too early

One producer fills a buffer while the consumer keeps up with it.  After it has set the flag of the
last slot, and before it counts it, the consumer reads that slot and deletes the buffer.
-/

section EarlyDeletion

variable {s s' : System Unit Unit} {k : ℕ}

/-- An ordinary run: `m_writeIndex` does not wrap and allocation succeeds. -/
def Ordinary (s : System Unit Unit) (l : Label Unit Unit) : Prop :=
  NoWrap s l ∧ ∀ t, l ≠ .badAlloc t

/-- An ordinary run that deletes no buffer. -/
def Keeping (s : System Unit Unit) (l : Label Unit Unit) : Prop :=
  Ordinary s l ∧ (l = .consume → s.consumer ≠ .pop)

/-- The first buffer is the only one; `r` lines of it have been read and `k` counted. -/
structure Opened (s : System Unit Unit) (r k : ℕ) : Prop where
  consumer : ∃ result, s.consumer = .outside result
  readIndex : s.queue.readIndex.toNat = r
  currentWrite : s.queue.currentWriteBuffer = some 0
  currentRead : s.queue.currentReadBuffer = some 0
  flag : s.queue.flag = false
  buffers : s.queue.buffers = [0]
  count : (s.queue.heap 0).count.toNat = k

/-- `k` lines have been pushed and popped, one after another. -/
structure Level (s : System Unit Unit) (k : ℕ) : Prop extends Opened s k k where
  producers : s.producers () = .idle
  writeIndex : s.queue.writeIndex.toNat = k

/-- The next push has set the flag of its slot, the last of `k + 1`, and is to count it. -/
structure Published (s : System Unit Unit) (k : ℕ) : Prop extends Opened s k k where
  producers : ∃ p, s.producers () = .pushing p (.count 0)
  writeIndex : s.queue.writeIndex.toNat = k + 1
  written : (s.queue.heap 0).isWritten k
  cell : ∃ c, (s.queue.heap 0).buffer k = some c

theorem step_produce [DecidableEq T] {s : System T α} {t : T} {p : Push T α} {pc : Pc}
    (ht : s.producers t = .pushing p pc) :
    (machine T α).step s (.produce t) = s.produce t p pc := by
  simp [machine, System.step, ht]

theorem producers_goto [DecidableEq T] (s : System T α) (t : T) (p : Push T α) (pc : Pc) :
    (s.goto t p pc).producers t = .pushing p pc := Function.update_self _ _ _

theorem keeping_push (s : System Unit Unit) (t : Unit) (a : Unit) : Keeping s (.push t a) := by
  simp [Keeping, Ordinary, NoWrap]

theorem keeping_produce {t : Unit} {p : Push Unit Unit} {pc : Pc}
    (ht : s.producers t = .pushing p pc)
    (hroom : pc = .claim → s.queue.writeIndex.toNat + 1 < 2 ^ 32) : Keeping s (.produce t) := by
  simpa [Keeping, Ordinary, NoWrap, ht] using hroom

theorem keeping_tryPop (s : System Unit Unit) : Keeping s .tryPop := by
  simp [Keeping, Ordinary, NoWrap]

theorem ordinary_consume (s : System Unit Unit) : Ordinary s .consume := by
  simp [Ordinary, NoWrap]

theorem keeping_consume {c : Consumer} (hc : s.consumer = c) (hpop : c ≠ .pop) :
    Keeping s .consume :=
  ⟨ordinary_consume s, fun _ => hc ▸ hpop⟩

/-- The loop of single pushes and pops begins: a first `tryPop` finds the buffer empty. -/
theorem exists_level_zero : ∃ s, (machine Unit Unit).Reachable Keeping s ∧ Level s 0 := by
  refine ⟨_, .tail _ (.tail _ (.tail _ (.tail _ (.tail .tryPop .refl (keeping_tryPop _) rfl)
    (keeping_consume rfl (by decide)) rfl) (keeping_consume rfl (by decide)) rfl)
    (keeping_consume rfl (by decide)) rfl) (keeping_consume rfl (by decide)) rfl, ?_⟩
  exact
    { consumer := ⟨_, rfl⟩
      readIndex := rfl
      currentWrite := rfl
      currentRead := rfl
      flag := rfl
      buffers := rfl
      count := rfl
      producers := rfl
      writeIndex := rfl }

theorem exists_published (h : Level s k) (hk : k < Buffer.size) :
    ∃ s', (machine Unit Unit).Reaches Keeping s s' ∧ Published s' k := by
  have hp := h.producers
  have hw := h.writeIndex
  have hsize := size_lt
  let p : Push Unit Unit := ⟨(), s.begun.length, ()⟩
  let s₁ := (s.begin p).goto () p .claim
  let s₂ := (s₁.afterClaim p).goto () p (.load k)
  let s₃ := s₂.goto () p (.construct 0 k)
  let s₄ := (s₃.afterConstruct p 0 k).goto () p (.publish 0 k)
  let s₅ := (s₄.setQueue (s₄.queue.onBuffer 0 (·.publish k))).goto () p (.count 0)
  have hp₁ : s₁.producers () = .pushing p .claim := producers_goto _ _ _ _
  have hp₂ : s₂.producers () = .pushing p (.load k) := producers_goto _ _ _ _
  have hp₃ : s₃.producers () = .pushing p (.construct 0 k) := producers_goto _ _ _ _
  have hp₄ : s₄.producers () = .pushing p (.publish 0 k) := producers_goto _ _ _ _
  have h₁ : (machine Unit Unit).step s (.push () ()) = some s₁ := by
    simp [machine, System.step, hp, s₁, p]
  have h₂ : (machine Unit Unit).step s₁ (.produce ()) = some s₂ := by
    have hs₁ : s₁.queue.writeIndex.toNat = k := hw
    rw [step_produce hp₁, System.produce, hs₁, if_pos hk]
  have h₃ : (machine Unit Unit).step s₂ (.produce ()) = some s₃ :=
    (step_produce hp₂).trans (congrArg (Option.map _) h.currentWrite)
  have h₄ : (machine Unit Unit).step s₃ (.produce ()) = some s₄ := step_produce hp₃
  have h₅ : (machine Unit Unit).step s₄ (.produce ()) = some s₅ := step_produce hp₄
  refine ⟨s₅, ?_, ?_⟩
  · refine .tail _ (.tail _ (.tail _ (.tail _ (.tail _ .refl (keeping_push s () ()) h₁)
      (keeping_produce hp₁ fun _ => ?_) h₂) (keeping_produce hp₂ (by simp)) h₃)
      (keeping_produce hp₃ (by simp)) h₄) (keeping_produce hp₄ (by simp)) h₅
    show s.queue.writeIndex.toNat + 1 < 2 ^ 32
    omega
  · have hheap₄ : s₄.queue.heap 0 = (s.queue.heap 0).construct k p :=
      onBuffer_heap_self s₃.queue 0 (·.construct k p)
    have hheap : s₅.queue.heap 0 = ((s.queue.heap 0).construct k p).publish k := by
      rw [← hheap₄]
      exact onBuffer_heap_self s₄.queue 0 (·.publish k)
    exact
      { consumer := h.consumer
        readIndex := h.readIndex
        currentWrite := h.currentWrite
        currentRead := h.currentRead
        flag := h.flag
        buffers := h.buffers
        count := by
          rw [hheap, Buffer.count_publish _ hk]
          exact h.count
        producers := ⟨p, producers_goto _ _ _ _⟩
        writeIndex := by
          rw [← hw]
          exact toNat_fetchAdd s (by omega)
        written := by
          rw [hheap]
          exact (Buffer.isWritten_publish _ _ _).2 (.inl rfl)
        cell := by
          rw [hheap]
          exact ⟨_, (Buffer.buffer_construct _ _ _ _).trans (if_pos rfl)⟩ }

/-- The consumer reads the slot that has just been published, up to the end of the move. -/
theorem exists_moved {r : ℕ} (h : Opened s r k) (hwritten : (s.queue.heap 0).isWritten r)
    (hcell : ∃ c, (s.queue.heap 0).buffer r = some c) :
    ∃ c, (machine Unit Unit).Reaches Keeping s
      ((s.await s.queue (.move 0)).afterMove 0 c).advance := by
  obtain ⟨result, hresult⟩ := h.consumer
  obtain ⟨c, hc⟩ := hcell
  have hread := h.readIndex
  have h₁ : (machine Unit Unit).step s .tryPop = some (s.await s.queue (.load 0)) := by
    simp [machine, System.step, hresult, h.currentRead]
  have h₂ : (machine Unit Unit).step (s.await s.queue (.load 0)) .consume =
      some (s.await s.queue (.move 0)) := by
    show (if (s.queue.heap 0).isWritten s.queue.readIndex.toNat then _ else _) = _
    rw [hread, if_pos hwritten]
    rfl
  have h₃ : (machine Unit Unit).step (s.await s.queue (.move 0)) .consume =
      some ((s.await s.queue (.move 0)).afterMove 0 c).advance := by
    show ((s.queue.heap 0).buffer s.queue.readIndex.toNat).map _ = _
    rw [hread, hc]
    rfl
  exact ⟨c, .tail _ (.tail _ (.tail _ .refl (keeping_tryPop _) h₁)
    (keeping_consume (c := .load 0) rfl (by decide)) h₂)
    (keeping_consume (c := .move 0) rfl (by decide)) h₃⟩

theorem exists_level_succ (h : Published s k) (hk : k + 1 < Buffer.size) :
    ∃ s', (machine Unit Unit).Reaches Keeping s s' ∧ Level s' (k + 1) := by
  obtain ⟨p, hp⟩ := h.producers
  have hsize := size_lt
  have hsucc {x : BitVec 32} (hx : x.toNat = k) : (x + 1).toNat = k + 1 := by
    rw [BitVec.toNat_add, hx]
    exact Nat.mod_eq_of_lt (by change k + 1 < 2 ^ 32; omega)
  let s₁ := (s.setQueue (s.queue.onBuffer 0 Buffer.countUp)).leave ()
  have h₁ : (machine Unit Unit).step s (.produce ()) = some s₁ := by
    rw [step_produce hp, System.produce, hsucc h.count, if_neg (by omega)]
  have hheap : s₁.queue.heap 0 = (s.queue.heap 0).countUp :=
    onBuffer_heap_self s.queue 0 Buffer.countUp
  have hopened : Opened s₁ k (k + 1) :=
    { consumer := h.consumer
      readIndex := h.readIndex
      currentWrite := h.currentWrite
      currentRead := h.currentRead
      flag := h.flag
      buffers := h.buffers
      count := by rw [hheap, Buffer.count_countUp, hsucc h.count] }
  obtain ⟨c, hmoved⟩ := exists_moved hopened
    (by rw [hheap]; exact (Buffer.isWritten_countUp _ (by omega)).2 h.written)
    (by rw [hheap]; exact h.cell)
  refine ⟨_, .trans (.single _ (keeping_produce hp (by simp)) h₁) hmoved, ?_⟩
  have hread : (s₁.queue.readIndex + 1).toNat = k + 1 := hsucc h.readIndex
  unfold System.advance
  rw [if_neg (by change (s₁.queue.readIndex + 1).toNat ≠ Buffer.size; omega)]
  exact
    { consumer := ⟨_, rfl⟩
      readIndex := hread
      currentWrite := h.currentWrite
      currentRead := h.currentRead
      flag := h.flag
      buffers := h.buffers
      count := by
        have hcount := onBuffer_view Buffer.count (q := s₁.queue) (b := 0)
          (f := (·.moveOut s₁.queue.readIndex.toNat)) rfl 0
        exact (congrArg BitVec.toNat hcount).trans hopened.count
      producers := by
        show Function.update s.producers () Producer.idle () = _
        exact Function.update_self _ _ _
      writeIndex := h.writeIndex }

theorem exists_level (hk : k < Buffer.size) :
    ∃ s, (machine Unit Unit).Reachable Keeping s ∧ Level s k := by
  induction k with
  | zero => exact exists_level_zero
  | succ k ih =>
    obtain ⟨s, hs, hl⟩ := ih (by omega)
    obtain ⟨s₁, hs₁, hp⟩ := exists_published hl (by omega)
    obtain ⟨s₂, hs₂, hl₂⟩ := exists_level_succ hp hk
    exact ⟨s₂, (hs.trans hs₁).trans hs₂, hl₂⟩

/-- The consumer is to delete the first buffer, whose last line is still to be counted. -/
theorem exists_at_pop : ∃ s : System Unit Unit, (machine Unit Unit).Reachable Keeping s ∧
    s.consumer = .pop ∧ s.queue.buffers = [0] ∧ ∃ p, s.producers () = .pushing p (.count 0) := by
  obtain ⟨s, hs, hl⟩ := exists_level (k := Buffer.size - 1) (by decide)
  obtain ⟨s₁, hs₁, hp⟩ := exists_published hl (by decide)
  obtain ⟨c, hmoved⟩ := exists_moved hp.toOpened hp.written hp.cell
  obtain ⟨p, hprod⟩ := hp.producers
  let s₂ := (s₁.await s₁.queue (.move 0)).afterMove 0 c
  have hend : (s₂.queue.readIndex + 1).toNat = Buffer.size := by
    show (s₁.queue.readIndex + 1).toNat = Buffer.size
    rw [BitVec.toNat_add, hp.readIndex]
    decide
  have hadvance : s₂.advance =
      s₂.await { s₂.queue with readIndex := 0, currentReadBuffer := none } .lockPop := if_pos hend
  have hlock : (machine Unit Unit).step s₂.advance .consume =
      some (s₂.advance.await s₂.advance.queue.acquire .pop) := by
    rw [hadvance]
    show some (if s₁.queue.flag then _ else _) = _
    rw [hp.flag]
    rfl
  have hkeep : Keeping s₂.advance .consume := by
    rw [hadvance]
    exact keeping_consume (c := .lockPop) rfl (by decide)
  refine ⟨_, .tail _ ((hs.trans hs₁).trans hmoved) hkeep hlock, rfl, ?_, p, ?_⟩
  · show s₂.advance.queue.buffers = _
    rw [hadvance]
    exact hp.buffers
  · show s₂.advance.producers () = _
    rw [hadvance]
    exact hprod

end EarlyDeletion

/-- In a run without wrap in which every buffer is counted when it is deleted, no push is ever to
access a deleted buffer; and the removal of a buffer leaves it without any such push exactly when
its counter has reached `Buffer::size`. -/
theorem noDangling_of_counted [Fintype T] [DecidableEq T] :
    (∀ s : System T α, (machine T α).Reachable (fun s l => NoWrap s l ∧ CountedAtPop s l) s →
        s.NoDangling) ∧
      ∀ s : System T α, (machine T α).Reachable NoWrap s → s.consumer = .pop →
        ∀ b, s.queue.buffers.head? = some b →
          (¬ s.Accessing b ↔ (s.queue.heap b).count.toNat = Buffer.size) := by
  constructor
  · intro s h
    have both : Protocol s ∧ s.ReleasedCounted := by
      refine h.invariant (P := fun s => Protocol s ∧ s.ReleasedCounted)
        ⟨.init, fun b hb => nomatch hb⟩ fun _ _ _ hinv hg hstep => ?_
      exact ⟨hinv.1.step hg.1 (Step.of_step hstep),
        ReleasedCounted.step hinv.2 hinv.1 hg.2 (Step.of_step hstep)⟩
    exact both.1.noDangling both.2
  · intro s h hc b hb
    exact (Protocol.of_reachable (fun _ _ hg => hg) h).not_accessing_iff hc hb

/-- The condition at the moment of an early deletion: nothing dangles yet, but the counter has not
reached `Buffer::size`. -/
theorem noDangling_of_counted_at_pop : ∃ s : System Unit Unit, s.consumer = .pop ∧ s.NoDangling ∧
    (s.queue.heap 0).count.toNat ≠ Buffer.size := by
  obtain ⟨s, hs, hc, hb, p, hp⟩ := exists_at_pop
  have hkeep : (machine Unit Unit).Reachable (fun s l => NoWrap s l ∧ CountedAtPop s l) s :=
    hs.mono fun _ _ hg => ⟨hg.1.1, fun hl hpop => absurd hpop (hg.2 hl)⟩
  refine ⟨s, hc, noDangling_of_counted.1 s hkeep, fun hcount => ?_⟩
  have hiff := noDangling_of_counted.2 s (hkeep.mono fun _ _ hg => hg.1) hc 0 (by rw [hb]; rfl)
  exact hiff.2 hcount ⟨(), p, .inr (.inr (.inr hp))⟩

/-- A buffer can be deleted while a push is still to count its line in it. -/
theorem exists_dangling : ∃ s : System Unit Unit, (machine Unit Unit).Reachable Ordinary s ∧
    ∃ b ∈ s.released, ∃ p, s.producers () = .pushing p (.count b) := by
  obtain ⟨s, hs, hc, hb, p, hp⟩ := exists_at_pop
  have hpop : (machine Unit Unit).step s .consume = some (s.afterPop 0 []) := by
    simp [machine, System.step, System.consume, hc, hb]
  exact ⟨_, .tail _ (hs.mono fun _ _ hg => hg.1) (ordinary_consume s) hpop, 0,
    List.mem_append_right _ List.mem_cons_self, p, hp⟩

end QueueBuffer

end ZephyrLog
