import ZephyrLog.QueueBuffer.History
import ZephyrLog.Lib.Threads

/-!
# Claims, counters and the switch to the next buffer

The buffers are numbered by the order of their allocation, and `switches` is the number of the one
whose indices are being claimed.  `Switching` ties `m_writeIndex`, that buffer's counter and the
producers' locations together: a push that claimed an index has either been counted or is still to
be, so the counter reaches `Buffer::size` once, when no such push is left, and one thread switches.
-/

namespace ZephyrLog

namespace QueueBuffer

variable {T α : Type}

theorem size_pos : 0 < Buffer.size := by decide

theorem size_lt : Buffer.size < 2 ^ 32 := by decide

/-- 1 from the claim of an index below `Buffer::size` to the increment of the counter. -/
def Pc.outstanding : Pc → ℕ
  | .load _ | .construct .. | .publish .. | .count _ => 1
  | _ => 0

/-- 1 from the last increment of a counter to the reset of `m_writeIndex`. -/
def Pc.switching : Pc → ℕ
  | .lock | .alloc | .setWriteBuffer _ | .enqueue _ | .resetIndex => 1
  | _ => 0

/-- 1 in the loop that waits for the switch. -/
def Pc.spinning : Pc → ℕ
  | .spin => 1
  | _ => 0

/-- The weight of the operation a producer is at, and 0 outside `push`. -/
def Producer.weight (f : Pc → ℕ) : Producer T α → ℕ
  | .idle => 0
  | .pushing _ pc => f pc

@[simp] theorem weight_pushing (f : Pc → ℕ) (p : Push T α) (pc : Pc) :
    (Producer.pushing p pc).weight f = f pc := rfl

/-- The sum of a weight over all producers. -/
def System.total [Fintype T] (s : System T α) (f : Pc → ℕ) : ℕ :=
  Threads.total (Producer.weight f) s.producers

/-- The addresses `m_currentWriteBuffer` and `m_buffers` hold, with the buffers already deleted. -/
structure System.Layout (s : System T α) (allocated current enqueued : ℕ) : Prop where
  allocated : s.queue.allocated = allocated
  current : s.queue.currentWriteBuffer = some current
  enqueued : s.released ++ s.queue.buffers = List.range enqueued

/-- What holds of the shared memory while a producer is at a location. -/
def System.AtPc (s : System T α) : Pc → Prop
  | .load w => w < Buffer.size
  | .construct b w | .publish b w => b = s.switches ∧ w < Buffer.size
  | .count b => b = s.switches
  | .lock | .alloc => s.Layout (s.switches + 1) s.switches (s.switches + 1)
  | .setWriteBuffer n =>
    n = s.switches + 1 ∧ s.Layout (s.switches + 2) s.switches (s.switches + 1)
  | .enqueue n =>
    n = s.switches + 1 ∧ s.Layout (s.switches + 2) (s.switches + 1) (s.switches + 1)
  | .resetIndex => s.Layout (s.switches + 2) (s.switches + 1) (s.switches + 2)
  | .claim | .spin | .unlock => True

/-- The counter of the buffer being written. -/
def System.counter (s : System T α) : ℕ := (s.queue.heap s.switches).count.toNat

/-- The number of indices claimed in the buffer being written. -/
def System.claimed (s : System T α) : ℕ := min s.queue.writeIndex.toNat Buffer.size

/-- The step does not make the 32-bit `m_writeIndex` wrap. -/
def NoWrap (s : System T α) (l : Label T α) : Prop :=
  ∀ t p, l = .produce t → s.producers t = .pushing p .claim →
    s.queue.writeIndex.toNat + 1 < 2 ^ 32

/-- Claims, counters and the switch agree. -/
structure Switching [Fintype T] (s : System T α) : Prop where
  claims_length : s.claims.length = s.switches * Buffer.size + s.claimed
  writeIndex_le : s.queue.writeIndex.toNat ≤ Buffer.size + s.total Pc.spinning
  counted : s.counter + s.total Pc.outstanding = s.claimed
  switching_le : s.total Pc.switching ≤ 1
  full : 0 < s.total Pc.switching → s.counter = Buffer.size
  pcs : ∀ t p pc, s.producers t = .pushing p pc → s.AtPc pc
  settled : s.total Pc.switching = 0 → s.Layout (s.switches + 1) s.switches (s.switches + 1)
  unused : ∀ b > s.switches, ∀ i, (s.queue.heap b).writeState i = 0
  finished : ∀ b < s.switches, (s.queue.heap b).count.toNat = Buffer.size

section Totals

variable [DecidableEq T] {s : System T α} {t t' : T} {p q : Push T α} {pc pc' : Pc}

theorem total_update [Fintype T] (s : System T α) (t : T) (x : Producer T α) (f : Pc → ℕ) :
    { s with producers := Function.update s.producers t x }.total f + (s.producers t).weight f =
      s.total f + x.weight f :=
  Threads.total_update (Producer.weight f) s.producers t x

omit [DecidableEq T] in
theorem le_total [Fintype T] (f : Pc → ℕ) (ht : s.producers t = .pushing p pc) :
    f pc ≤ s.total f := by
  have h := Threads.le_total (f := Producer.weight f) (p := s.producers) t
  rwa [ht] at h

omit [DecidableEq T] in
/-- Some push has a location of positive weight. -/
theorem exists_pushing_of_total_pos [Fintype T] {f : Pc → ℕ} (h : 0 < s.total f) :
    ∃ t p pc, s.producers t = .pushing p pc ∧ 0 < f pc := by
  obtain ⟨t, ht⟩ := Threads.exists_of_total_pos h
  cases hx : s.producers t with
  | idle =>
    rw [hx] at ht
    exact absurd ht (Nat.lt_irrefl 0)
  | pushing p pc =>
    rw [hx] at ht
    exact ⟨t, p, pc, hx, ht⟩

end Totals

theorem claimed_le_size (s : System T α) : s.claimed ≤ Buffer.size := Nat.min_le_right _ _

theorem toNat_fetchAdd (s : System T α) (hroom : s.queue.writeIndex.toNat + 1 < 2 ^ 32) :
    (s.queue.writeIndex + 1).toNat = s.queue.writeIndex.toNat + 1 := by
  rw [BitVec.toNat_add]
  exact Nat.mod_eq_of_lt hroom

theorem claimed_afterClaim {s : System T α} (p : Push T α)
    (hw : s.queue.writeIndex.toNat < Buffer.size) :
    (s.afterClaim p).claimed = s.queue.writeIndex.toNat + 1 :=
  (congrArg (min · _) (toNat_fetchAdd s (Nat.lt_of_le_of_lt hw size_lt))).trans (Nat.min_eq_left hw)

theorem claimed_discard {s : System T α} (hw : Buffer.size ≤ s.queue.writeIndex.toNat)
    (hroom : s.queue.writeIndex.toNat + 1 < 2 ^ 32) :
    (s.setQueue s.queue.fetchAddWriteIndex).claimed = s.claimed :=
  ((congrArg (min · _) (toNat_fetchAdd s hroom)).trans (Nat.min_eq_right (by omega))).trans
    (Nat.min_eq_right hw).symm

/-- An operation that neither touches the counters nor the write side of the queue. -/
theorem System.AtPc.congr {s s' : System T α} {pc : Pc} (h : s.AtPc pc)
    (hswitches : s'.switches = s.switches)
    (hlayout : ∀ a c e, s.Layout a c e → s'.Layout a c e) : s'.AtPc pc := by
  cases pc <;> simp only [System.AtPc, hswitches] at h ⊢
  case load => exact h
  case construct => exact h
  case publish => exact h
  case count => exact h
  case lock => exact hlayout _ _ _ h
  case alloc => exact hlayout _ _ _ h
  case setWriteBuffer => exact ⟨h.1, hlayout _ _ _ h.2⟩
  case enqueue => exact ⟨h.1, hlayout _ _ _ h.2⟩
  case resetIndex => exact hlayout _ _ _ h

namespace Switching

variable [Fintype T] {s s' : System T α} {t : T} {p : Push T α} {pc : Pc}

theorem init : Switching (System.init : System T α) where
  claims_length := by simp [System.init, System.claimed, new, setupNextWriteBuffer, release,
    resetIndex]
  writeIndex_le := by simp [System.init, new, setupNextWriteBuffer, release, resetIndex]
  counted := by
    have h : (System.init : System T α).total Pc.outstanding = 0 :=
      Threads.total_eq_zero_iff.2 fun _ => rfl
    rw [h]
    simp [System.init, System.counter, System.claimed, new, setupNextWriteBuffer, release,
      resetIndex, enqueue, setWriteBuffer, alloc, acquire, Buffer.new, Buffer.count]
  switching_le := by
    have h : (System.init : System T α).total Pc.switching = 0 :=
      Threads.total_eq_zero_iff.2 fun _ => rfl
    omega
  full := by
    have h : (System.init : System T α).total Pc.switching = 0 :=
      Threads.total_eq_zero_iff.2 fun _ => rfl
    omega
  pcs := by intro t p pc ht; cases ht
  settled := fun _ => ⟨rfl, rfl, rfl⟩
  unused := by
    intro b _ i
    simp [System.init, new, setupNextWriteBuffer, release, resetIndex, enqueue, setWriteBuffer,
      alloc, acquire, Buffer.new]
  finished := by intro b hb; cases hb

/-- An operation that neither touches the counters nor the write side of the queue. -/
theorem congr (h : Switching s) (hproducers : s'.producers = s.producers)
    (hclaims : s'.claims = s.claims) (hswitches : s'.switches = s.switches)
    (hindex : s'.queue.writeIndex = s.queue.writeIndex)
    (hcount : ∀ b, (s'.queue.heap b).count = (s.queue.heap b).count)
    (hunused : ∀ b > s.switches, ∀ i,
      (s'.queue.heap b).writeState i = (s.queue.heap b).writeState i)
    (hlayout : ∀ a c e, s.Layout a c e → s'.Layout a c e) : Switching s' := by
  have htotal (f : Pc → ℕ) : s'.total f = s.total f := by rw [System.total, hproducers]; rfl
  have hclaimed : s'.claimed = s.claimed := by rw [System.claimed, hindex]; rfl
  have hcounter : s'.counter = s.counter := by rw [System.counter, hcount, hswitches]; rfl
  exact
    { claims_length := by rw [hclaims, hswitches, hclaimed]; exact h.claims_length
      writeIndex_le := by rw [hindex, htotal]; exact h.writeIndex_le
      counted := by rw [hcounter, htotal, hclaimed]; exact h.counted
      switching_le := by rw [htotal]; exact h.switching_le
      full := by rw [hcounter, htotal]; exact h.full
      pcs := by
        intro t p pc ht
        rw [hproducers] at ht
        exact (h.pcs t p pc ht).congr hswitches hlayout
      settled := by
        rw [htotal, hswitches]
        exact fun hzero => hlayout _ _ _ (h.settled hzero)
      unused := by
        intro b hb i
        rw [hswitches] at hb
        rw [hunused b hb]
        exact h.unused b hb i
      finished := by
        intro b hb
        rw [hswitches] at hb
        rw [hcount]
        exact h.finished b hb }

/-- No flag of a buffer that is not in use yet is set. -/
theorem not_isWritten (h : Switching s) {b : ℕ} (hb : s.switches < b) (i : ℕ) :
    ¬ (s.queue.heap b).isWritten i := by
  rw [Buffer.isWritten, h.unused b hb i]
  decide

/-- An operation of the consumer, or one on the lock or on a slot. -/
theorem setQueue (h : Switching s) {q : QueueBuffer (Push T α)}
    (hindex : q.writeIndex = s.queue.writeIndex)
    (hws : ∀ b, (q.heap b).writeState = (s.queue.heap b).writeState)
    (hallocated : q.allocated = s.queue.allocated)
    (hcurrent : q.currentWriteBuffer = s.queue.currentWriteBuffer)
    (hbuffers : q.buffers = s.queue.buffers) : Switching (s.setQueue q) :=
  h.congr rfl rfl rfl hindex (fun b => congrFun (hws b) _) (fun b _ i => congrFun (hws b) i)
    fun _ _ _ hl => ⟨hallocated.trans hl.1, hcurrent.trans hl.2, by
      rw [← hl.3]
      exact congrArg _ hbuffers⟩

/-- A step of the consumer that keeps the buffers. -/
theorem await (h : Switching s) {q : QueueBuffer (Push T α)} (c : Consumer)
    (hheap : q.heap = s.queue.heap) (hindex : q.writeIndex = s.queue.writeIndex)
    (hallocated : q.allocated = s.queue.allocated)
    (hcurrent : q.currentWriteBuffer = s.queue.currentWriteBuffer)
    (hbuffers : q.buffers = s.queue.buffers) : Switching (s.await q c) :=
  (h.setQueue hindex (fun b => by rw [hheap]) hallocated hcurrent hbuffers).congr rfl rfl rfl rfl
    (fun _ => rfl) (fun _ _ _ => rfl) fun _ _ _ hl => ⟨hl.1, hl.2, hl.3⟩

theorem advance (h : Switching s) : Switching s.advance := by
  unfold System.advance
  split
  · exact h.await _ rfl rfl rfl rfl rfl
  · exact h.await _ rfl rfl rfl rfl rfl

theorem afterMove (h : Switching s) (b : ℕ) (c : Cell (Push T α)) : Switching (s.afterMove b c) :=
  (h.setQueue (q := s.queue.onBuffer b (·.moveOut s.queue.readIndex.toNat)) rfl
    (onBuffer_view Buffer.writeState rfl) rfl rfl rfl).congr rfl rfl rfl rfl (fun _ => rfl)
    (fun _ _ _ => rfl) fun _ _ _ hl => ⟨hl.1, hl.2, hl.3⟩

theorem afterPop (h : Switching s) {b : ℕ} {rest : List ℕ} (hb : s.queue.buffers = b :: rest) :
    Switching (s.afterPop b rest) := by
  have hws (a : ℕ) : ((s.queue.onBuffer b Buffer.destroy).heap a).writeState =
      (s.queue.heap a).writeState := onBuffer_view Buffer.writeState rfl a
  refine h.congr rfl rfl rfl rfl (fun a => congrFun (hws a) _) (fun a _ i => congrFun (hws a) i) ?_
  intro a c e hl
  refine ⟨hl.1, hl.2, ?_⟩
  rw [← hl.3, hb]
  exact List.append_assoc _ [b] rest

variable [DecidableEq T]

/-- The thread `t` goes on to `x`, and the shared memory changes from that of `s` to that of `s₁`:
what has to hold of the counters, of the locations and of the addresses. -/
theorem move (h : Switching s) (s₁ : System T α) (t : T) (x : Producer T α)
    (hproducers : s₁.producers = s.producers) (hswitches : s₁.switches = s.switches)
    (hpc : ∀ p pc, x = .pushing p pc → s₁.AtPc pc)
    (hothers : ∀ t' ≠ t, ∀ p pc, s.producers t' = .pushing p pc → s₁.AtPc pc)
    (hws : ∀ b ≠ s.switches, (s₁.queue.heap b).writeState = (s.queue.heap b).writeState)
    (hclaims : s₁.claims.length = s.switches * Buffer.size + s₁.claimed)
    (hindex : s₁.queue.writeIndex.toNat + (s.producers t).weight Pc.spinning ≤
      Buffer.size + (s.total Pc.spinning + x.weight Pc.spinning))
    (hcounted : s₁.counter + (s.total Pc.outstanding + x.weight Pc.outstanding) =
      s₁.claimed + (s.producers t).weight Pc.outstanding)
    (hswitching : s.total Pc.switching + x.weight Pc.switching ≤
      1 + (s.producers t).weight Pc.switching)
    (hfull : (s.producers t).weight Pc.switching < s.total Pc.switching + x.weight Pc.switching →
      s₁.counter = Buffer.size)
    (hsettled : s.total Pc.switching + x.weight Pc.switching =
      (s.producers t).weight Pc.switching →
        s₁.Layout (s.switches + 1) s.switches (s.switches + 1)) :
    Switching { s₁ with producers := Function.update s₁.producers t x } := by
  have htotal (f : Pc → ℕ) :
      { s₁ with producers := Function.update s₁.producers t x }.total f +
        (s.producers t).weight f = s.total f + x.weight f := by
    have hu := total_update s t x f
    rw [← hu, hproducers]
    rfl
  have ho := htotal Pc.outstanding
  have hs := htotal Pc.switching
  have hp := htotal Pc.spinning
  have hl (a c e : ℕ) (h₁ : s₁.Layout a c e) :
      { s₁ with producers := Function.update s₁.producers t x }.Layout a c e :=
    ⟨h₁.1, h₁.2, h₁.3⟩
  exact
    { claims_length := by
        show s₁.claims.length = s₁.switches * Buffer.size + s₁.claimed
        rw [hswitches]
        exact hclaims
      writeIndex_le := by
        show s₁.queue.writeIndex.toNat ≤ _
        omega
      counted := by
        show s₁.counter + _ = s₁.claimed
        omega
      switching_le := by omega
      full := fun hpos => hfull (by omega)
      pcs := by
        intro t' q pc ht'
        rcases pushing_update ht' with ⟨-, hx⟩ | ⟨hne, hold⟩
        · exact (hpc q pc hx).congr rfl hl
        · exact (hothers t' hne q pc (hproducers ▸ hold)).congr rfl hl
      settled := by
        intro hzero
        have h₁ := hl _ _ _ (hsettled (by omega))
        rwa [← hswitches] at h₁
      unused := by
        intro b hb i
        have hb' : b > s.switches := hswitches ▸ hb
        exact (congrFun (hws b hb'.ne') i).trans (h.unused b hb' i)
      finished := by
        intro b hb
        have hb' : b < s.switches := hswitches ▸ hb
        exact (congrArg BitVec.toNat (congrFun (hws b hb'.ne) _)).trans (h.finished b hb') }

/-- A thread goes on while the write side of the queue stays as it is. -/
theorem goto (h : Switching s) (x : Producer T α)
    (hpc : ∀ p pc, x = .pushing p pc → s.AtPc pc)
    (hout : x.weight Pc.outstanding = (s.producers t).weight Pc.outstanding)
    (hsw : x.weight Pc.switching = (s.producers t).weight Pc.switching)
    (hspin : s.queue.writeIndex.toNat + (s.producers t).weight Pc.spinning ≤
      Buffer.size + (s.total Pc.spinning + x.weight Pc.spinning)) :
    Switching { s with producers := Function.update s.producers t x } := by
  refine h.move s t x rfl rfl hpc (fun t' _ p pc => h.pcs t' p pc) (fun _ _ => rfl) h.claims_length
    hspin ?_ ?_ ?_ ?_
  · have hc := h.counted
    omega
  · have hle := h.switching_le
    omega
  · exact fun hpos => h.full (by omega)
  · exact fun hzero => h.settled (by omega)

/-- The thread goes on to a location of the same weights. -/
theorem goto_same (h : Switching s) {pc' : Pc} (ht : s.producers t = .pushing p pc)
    (hpc' : s.AtPc pc') (hout : pc'.outstanding = pc.outstanding)
    (hsw : pc'.switching = pc.switching) (hspin : pc'.spinning = pc.spinning) :
    Switching (s.goto t p pc') := by
  refine h.goto (.pushing p pc') (by rintro _ _ ⟨⟩; exact hpc') ?_ ?_ ?_
  · rwa [ht, weight_pushing, weight_pushing]
  · rwa [ht, weight_pushing, weight_pushing]
  · have hle := h.writeIndex_le
    simp only [ht, weight_pushing, hspin]
    omega

/-- The locations of the other threads are those of a thread that does not switch. -/
theorem others_atPc (h : Switching s) (ht : s.producers t = .pushing p pc)
    (hpc : pc.switching = 1) {s₁ : System T α} (hswitches : s₁.switches = s.switches) :
    ∀ t' ≠ t, ∀ q pc', s.producers t' = .pushing q pc' → s₁.AtPc pc' := by
  intro t' hne q pc' ht'
  have hzero : pc'.switching = 0 := by
    by_contra hpos
    refine hne (Threads.eq_of_total_le_one h.switching_le (f := Producer.weight Pc.switching) ?_ ?_)
    · rw [ht']
      exact Nat.pos_of_ne_zero hpos
    · rw [ht]
      exact Nat.pos_of_ne_zero (by change pc.switching ≠ 0; omega)
  have hat := h.pcs t' q pc' ht'
  cases pc' <;> simp only [System.AtPc, Pc.switching, one_ne_zero] at hzero hat ⊢
  case load => exact hat
  case construct => rwa [hswitches]
  case publish => rwa [hswitches]
  case count => rwa [hswitches]

/-- A thread that does not switch goes on, and the shared memory changes in the indices or flags
while the counter stays as it is. -/
theorem move_noSwitch (h : Switching s) (s₁ : System T α) {pc' : Pc}
    (ht : s.producers t = .pushing p pc) (hsw : pc.switching = 0) (hsw' : pc'.switching = 0)
    (hproducers : s₁.producers = s.producers) (hswitches : s₁.switches = s.switches)
    (hpc' : s₁.AtPc pc') (hlayout : ∀ a c e, s.Layout a c e → s₁.Layout a c e)
    (hws : ∀ b ≠ s.switches, (s₁.queue.heap b).writeState = (s.queue.heap b).writeState)
    (hcounter : s₁.counter = s.counter)
    (hclaims : s₁.claims.length = s.switches * Buffer.size + s₁.claimed)
    (hindex : s₁.queue.writeIndex.toNat + pc.spinning ≤
      Buffer.size + (s.total Pc.spinning + pc'.spinning))
    (hcounted : s.counter + (s.total Pc.outstanding + pc'.outstanding) =
      s₁.claimed + pc.outstanding) : Switching (s₁.goto t p pc') := by
  refine h.move s₁ t (.pushing p pc') hproducers hswitches (by rintro _ _ ⟨⟩; exact hpc')
    (fun t' _ q pc hq => (h.pcs t' q pc hq).congr hswitches hlayout) hws hclaims ?_ ?_ ?_ ?_ ?_
  · rw [ht]
    exact hindex
  · rw [ht, hcounter]
    exact hcounted
  · have hle := h.switching_le
    simp only [ht, weight_pushing, hsw, hsw']
    omega
  · simp only [ht, weight_pushing, hsw, hsw', hcounter]
    exact h.full
  · simp only [ht, weight_pushing, hsw, hsw']
    exact fun hzero => hlayout _ _ _ (h.settled hzero)

theorem claim (h : Switching s) (ht : s.producers t = .pushing p .claim)
    (hw : s.queue.writeIndex.toNat < Buffer.size) :
    Switching ((s.afterClaim p).goto t p (.load s.queue.writeIndex.toNat)) := by
  have hW := toNat_fetchAdd s (Nat.lt_of_le_of_lt hw size_lt)
  have hclaimed : s.claimed = s.queue.writeIndex.toNat := Nat.min_eq_left hw.le
  have hclaimed' := claimed_afterClaim p hw
  refine h.move_noSwitch (s.afterClaim p) ht rfl rfl rfl rfl hw
    (fun _ _ _ hl => ⟨hl.1, hl.2, hl.3⟩) (fun _ _ => rfl) rfl ?_ ?_ ?_
  · have hl := h.claims_length
    show (s.claims ++ [p]).length = _
    rw [hclaimed', List.length_append, List.length_singleton]
    omega
  · have hle := h.writeIndex_le
    show (s.queue.writeIndex + 1).toNat + _ ≤ _
    simp only [Pc.spinning]
    omega
  · have hc := h.counted
    simp only [Pc.outstanding]
    omega

theorem discard (h : Switching s) (ht : s.producers t = .pushing p .claim)
    (hw : Buffer.size ≤ s.queue.writeIndex.toNat)
    (hroom : s.queue.writeIndex.toNat + 1 < 2 ^ 32) :
    Switching ((s.setQueue s.queue.fetchAddWriteIndex).goto t p .spin) := by
  have hW := toNat_fetchAdd s hroom
  have hclaimed' := claimed_discard hw hroom
  refine h.move_noSwitch (s.setQueue s.queue.fetchAddWriteIndex) ht rfl rfl rfl rfl trivial
    (fun _ _ _ hl => ⟨hl.1, hl.2, hl.3⟩) (fun _ _ => rfl) rfl ?_ ?_ ?_
  · rw [hclaimed']
    exact h.claims_length
  · have hle := h.writeIndex_le
    show (s.queue.writeIndex + 1).toNat + _ ≤ _
    simp only [Pc.spinning]
    omega
  · have hc := h.counted
    simp only [Pc.outstanding]
    omega

theorem publish (h : Switching s) {b w : ℕ} (ht : s.producers t = .pushing p (.publish b w)) :
    Switching ((s.setQueue (s.queue.onBuffer b (·.publish w))).goto t p (.count b)) := by
  obtain ⟨rfl, hw⟩ := h.pcs t p _ ht
  have hcounter : (s.setQueue (s.queue.onBuffer s.switches (·.publish w))).counter = s.counter := by
    simp only [System.counter, System.setQueue, onBuffer_heap, if_true]
    rw [Buffer.count_publish _ hw]
  refine h.move_noSwitch (s.setQueue (s.queue.onBuffer s.switches (·.publish w))) ht rfl rfl rfl rfl
    rfl (fun _ _ _ hl => ⟨hl.1, hl.2, hl.3⟩) ?_ hcounter h.claims_length h.writeIndex_le ?_
  · intro c hc
    simp only [System.setQueue, onBuffer_heap, if_neg hc]
  · have hc := h.counted
    show _ = s.claimed + _
    simp only [Pc.outstanding]
    omega

omit [DecidableEq T] in
/-- A thread that is still to be counted finds the counter below `Buffer::size`. -/
theorem counter_lt (h : Switching s) (ht : s.producers t = .pushing p pc)
    (hpc : pc.outstanding = 1) : s.counter < Buffer.size := by
  have hle := le_total Pc.outstanding ht
  have hc := h.counted
  have := claimed_le_size s
  omega

theorem count (h : Switching s) {b : ℕ} (ht : s.producers t = .pushing p (.count b))
    {x : Producer T α}
    (hx : ((s.queue.heap b).count + 1).toNat = Buffer.size ∧ x = .pushing p .lock ∨
      ((s.queue.heap b).count + 1).toNat ≠ Buffer.size ∧ x = .idle) :
    Switching { s.setQueue (s.queue.onBuffer b Buffer.countUp) with
      producers := Function.update s.producers t x } := by
  obtain rfl : b = s.switches := h.pcs t p _ ht
  have hlt := h.counter_lt ht rfl
  have hone : ((s.queue.heap s.switches).count + 1).toNat = s.counter + 1 := by
    have := size_lt
    rw [BitVec.toNat_add]
    exact Nat.mod_eq_of_lt (by change s.counter + 1 < 2 ^ 32; omega)
  have hcounter :
      (s.setQueue (s.queue.onBuffer s.switches Buffer.countUp)).counter = s.counter + 1 := by
    simp only [System.counter, System.setQueue, onBuffer_heap, if_true, Buffer.count_countUp]
    exact hone
  have hzero : s.total Pc.switching = 0 := by
    by_contra hpos
    have := h.full (Nat.pos_of_ne_zero hpos)
    omega
  have hlayout := h.settled hzero
  have hweight : x.weight Pc.outstanding = 0 ∧ x.weight Pc.spinning = 0 ∧
      (x.weight Pc.switching = 0 ∨ x.weight Pc.switching = 1 ∧ s.counter + 1 = Buffer.size) := by
    rcases hx with ⟨hfull, rfl⟩ | ⟨-, rfl⟩
    · exact ⟨rfl, rfl, .inr ⟨rfl, hone ▸ hfull⟩⟩
    · exact ⟨rfl, rfl, .inl rfl⟩
  obtain ⟨hout, hspin, hsw⟩ := hweight
  refine h.move (s.setQueue (s.queue.onBuffer s.switches Buffer.countUp)) t x rfl rfl ?_
    (fun t' _ q pc hq => (h.pcs t' q pc hq).congr rfl fun _ _ _ hl => ⟨hl.1, hl.2, hl.3⟩)
    ?_ h.claims_length ?_ ?_ ?_ ?_ ?_
  · rintro q pc rfl
    rcases hx with ⟨-, hx⟩ | ⟨-, hx⟩
    · cases hx
      exact ⟨hlayout.1, hlayout.2, hlayout.3⟩
    · cases hx
  · intro c hc
    simp only [System.setQueue, onBuffer_heap, if_neg hc]
  · simp only [ht, weight_pushing, Pc.spinning, hspin]
    exact h.writeIndex_le
  · have hc := h.counted
    rw [hcounter]
    show _ = s.claimed + _
    simp only [ht, weight_pushing, Pc.outstanding, hout]
    omega
  · simp only [ht, weight_pushing, Pc.switching]
    omega
  · simp only [ht, weight_pushing, Pc.switching, hcounter]
    omega
  · exact fun _ => ⟨hlayout.1, hlayout.2, hlayout.3⟩

/-- The switching thread changes the addresses from one location to the next. -/
theorem relayout (h : Switching s) (ht : s.producers t = .pushing p pc) (hpc : pc.switching = 1)
    (s₁ : System T α) {pc' : Pc} (hpc' : pc'.switching = 1)
    (hproducers : s₁.producers = s.producers) (hclaims : s₁.claims = s.claims)
    (hswitches : s₁.switches = s.switches) (hindex : s₁.queue.writeIndex = s.queue.writeIndex)
    (hws : ∀ b, (s₁.queue.heap b).writeState = (s.queue.heap b).writeState)
    (hat : s₁.AtPc pc') : Switching (s₁.goto t p pc') := by
  have hout : pc.outstanding = 0 ∧ pc'.outstanding = 0 ∧ pc.spinning = 0 := by
    cases pc <;> cases pc' <;> simp_all [Pc.switching, Pc.outstanding, Pc.spinning]
  obtain ⟨hout, hout', hspin⟩ := hout
  have hclaimed : s₁.claimed = s.claimed := by rw [System.claimed, hindex]; rfl
  have hcounter : s₁.counter = s.counter := by
    rw [System.counter, hswitches]
    exact congrArg BitVec.toNat (congrFun (hws _) _)
  refine h.move s₁ t (.pushing p pc') hproducers hswitches ?_ (h.others_atPc ht hpc hswitches)
    (fun b _ => hws b) ?_ ?_ ?_ ?_ ?_ ?_
  · rintro q pc ⟨⟩
    exact hat
  · rw [hclaims, hclaimed]
    exact h.claims_length
  · have hle := h.writeIndex_le
    rw [hindex, ht, weight_pushing, hspin]
    omega
  · have hc := h.counted
    simp only [ht, weight_pushing, hout, hout', hcounter, hclaimed]
    omega
  · have hle := h.switching_le
    simp only [ht, weight_pushing, hpc, hpc']
    omega
  · intro hpos
    simp only [ht, weight_pushing, hpc, hpc'] at hpos
    rw [hcounter]
    exact h.full (by omega)
  · intro hzero
    have hle := le_total Pc.switching ht
    simp only [ht, weight_pushing, hpc, hpc'] at hzero hle
    omega

theorem alloc (h : Switching s) (ht : s.producers t = .pushing p .alloc) :
    Switching ((s.setQueue s.queue.alloc).goto t p (.setWriteBuffer s.queue.allocated)) := by
  have hl := h.pcs t p _ ht
  refine h.relayout ht rfl (s.setQueue s.queue.alloc) rfl rfl rfl rfl rfl ?_ ?_
  · intro b
    by_cases hb : b = s.queue.allocated
    · subst hb
      show (Function.update s.queue.heap _ Buffer.new _).writeState = _
      rw [Function.update_self, hl.allocated]
      funext i
      exact (h.unused _ (Nat.lt_succ_self _) i).symm
    · exact congrArg Buffer.writeState (Function.update_of_ne hb _ _)
  · refine ⟨hl.allocated, ?_, hl.current, hl.enqueued⟩
    show s.queue.allocated + 1 = _
    rw [hl.allocated]
    rfl

theorem setWriteBuffer (h : Switching s) {next : ℕ}
    (ht : s.producers t = .pushing p (.setWriteBuffer next)) :
    Switching ((s.setQueue (s.queue.setWriteBuffer next)).goto t p (.enqueue next)) := by
  obtain ⟨rfl, hl⟩ := h.pcs t p _ ht
  exact h.relayout ht rfl (s.setQueue (s.queue.setWriteBuffer _)) rfl rfl rfl rfl rfl
    (fun _ => rfl) ⟨rfl, hl.allocated, rfl, hl.enqueued⟩

theorem enqueue (h : Switching s) {next : ℕ}
    (ht : s.producers t = .pushing p (.enqueue next)) :
    Switching ((s.setQueue (s.queue.enqueue next)).goto t p .resetIndex) := by
  obtain ⟨rfl, hl⟩ := h.pcs t p _ ht
  refine h.relayout ht rfl (s.setQueue (s.queue.enqueue _)) rfl rfl rfl rfl rfl
    (fun _ => rfl) ⟨hl.allocated, hl.current, ?_⟩
  show s.released ++ (s.queue.buffers ++ [s.switches + 1]) = _
  rw [← List.append_assoc, hl.enqueued, ← List.range_succ]
  rfl

omit [DecidableEq T] in
/-- Once the last line of a buffer is counted, every index of it has been claimed. -/
theorem claimed_of_switching (h : Switching s) (hpos : 0 < s.total Pc.switching) :
    s.claimed = Buffer.size ∧ s.total Pc.outstanding = 0 := by
  have hf := h.full hpos
  have hc := h.counted
  have := claimed_le_size s
  omega

theorem resetIndex (h : Switching s) (ht : s.producers t = .pushing p .resetIndex) :
    Switching (s.afterReset.goto t p .unlock) := by
  have hl := h.pcs t p _ ht
  have hpos : 0 < s.total Pc.switching := lt_of_lt_of_le Nat.one_pos (le_total Pc.switching ht)
  obtain ⟨hclaimed, hout⟩ := h.claimed_of_switching hpos
  have hle := h.switching_le
  have htotal (f : Pc → ℕ) : (s.afterReset.goto t p .unlock).total f + f .resetIndex =
      s.total f + f .unlock := by
    have hu := total_update s t (.pushing p .unlock) f
    rw [ht] at hu
    exact hu
  have ho := htotal Pc.outstanding
  have hs := htotal Pc.switching
  have hclaimed' : (s.afterReset.goto t p .unlock).claimed = 0 := by
    simp [System.claimed, System.goto, System.afterReset, QueueBuffer.resetIndex]
  have hcounter' : (s.afterReset.goto t p .unlock).counter = 0 := by
    have hz := h.unused (s.switches + 1) (Nat.lt_succ_self _) Buffer.size
    exact congrArg BitVec.toNat hz
  simp only [Pc.outstanding, Pc.switching] at ho hs
  exact
    { claims_length := by
        rw [hclaimed']
        show s.claims.length = (s.switches + 1) * Buffer.size + 0
        rw [h.claims_length, hclaimed, Nat.succ_mul, Nat.add_zero]
      writeIndex_le := Nat.zero_le _
      counted := by omega
      switching_le := by omega
      full := by omega
      pcs := by
        intro t' q pc' ht'
        have hsw := le_total Pc.switching ht'
        have hout := le_total Pc.outstanding ht'
        cases pc' with
        | claim | spin | unlock => trivial
        | _ =>
          simp only [Pc.switching, Pc.outstanding] at hsw hout
          omega
      settled := fun _ => ⟨hl.1, hl.2, hl.3⟩
      unused := fun b hb i => h.unused b (lt_trans (Nat.lt_succ_self _) hb) i
      finished := by
        intro b hb
        rcases Nat.lt_succ_iff_lt_or_eq.1 hb with hlt | rfl
        · exact h.finished b hlt
        · exact h.full hpos }

theorem begin (h : Switching s) (ht : s.producers t = .idle) :
    Switching ((s.begin p).goto t p .claim) := by
  have h₁ : Switching (s.begin p) :=
    h.congr rfl rfl rfl rfl (fun _ => rfl) (fun _ _ _ => rfl) fun _ _ _ hl => ⟨hl.1, hl.2, hl.3⟩
  have ht₁ : (s.begin p).producers t = .idle := ht
  refine h₁.goto (.pushing p .claim) (by rintro _ _ ⟨⟩; trivial) ?_ ?_ ?_
  · rw [ht₁]; rfl
  · rw [ht₁]; rfl
  · rw [ht₁]
    exact h₁.writeIndex_le

theorem retry (h : Switching s) (ht : s.producers t = .pushing p .spin)
    (hw : s.queue.writeIndex.toNat < Buffer.size) : Switching (s.goto t p .claim) := by
  refine h.goto (.pushing p .claim) (by rintro _ _ ⟨⟩; trivial) ?_ ?_ ?_
  · rw [ht]; rfl
  · rw [ht]; rfl
  · simp only [ht, weight_pushing, Pc.spinning]
    omega

omit [DecidableEq T] in
/-- The buffer a producer loads is the one in which it claimed its index. -/
theorem current (h : Switching s) {w : ℕ} (ht : s.producers t = .pushing p (.load w)) :
    s.queue.currentWriteBuffer = some s.switches := by
  have hlt := h.counter_lt ht rfl
  refine (h.settled ?_).current
  by_contra hpos
  have := h.full (Nat.pos_of_ne_zero hpos)
  omega

theorem load (h : Switching s) {w b : ℕ} (ht : s.producers t = .pushing p (.load w))
    (hb : s.queue.currentWriteBuffer = some b) : Switching (s.goto t p (.construct b w)) := by
  rw [h.current ht, Option.some.injEq] at hb
  exact h.goto_same ht ⟨hb.symm, h.pcs t p _ ht⟩ rfl rfl rfl

theorem construct (h : Switching s) {b w : ℕ} (ht : s.producers t = .pushing p (.construct b w)) :
    Switching ((s.afterConstruct p b w).goto t p (.publish b w)) := by
  have h₁ : Switching (s.afterConstruct p b w) :=
    (h.setQueue (q := s.queue.onBuffer b (·.construct w p)) rfl
      (onBuffer_view Buffer.writeState rfl) rfl rfl rfl).congr rfl rfl rfl rfl (fun _ => rfl)
      (fun _ _ _ => rfl) fun _ _ _ hl => ⟨hl.1, hl.2, hl.3⟩
  exact h₁.goto_same ht (h.pcs t p _ ht) rfl rfl rfl

theorem lock (h : Switching s) (ht : s.producers t = .pushing p .lock) :
    Switching ((s.setQueue s.queue.acquire).goto t p .alloc) := by
  have h₁ : Switching (s.setQueue s.queue.acquire) :=
    h.setQueue rfl (fun _ => rfl) rfl rfl rfl
  exact h₁.goto_same ht (h₁.pcs t p .lock ht) rfl rfl rfl

theorem badAlloc (h : Switching s) (ht : s.producers t = .pushing p .alloc) :
    Switching (s.goto t p .unlock) := by
  have hl := h.pcs t p _ ht
  have hle := h.switching_le
  refine h.move s t (.pushing p .unlock) rfl rfl (by rintro _ _ ⟨⟩; trivial)
    (fun t' _ p pc => h.pcs t' p pc) (fun _ _ => rfl) h.claims_length ?_ ?_ ?_ ?_ (fun _ => hl)
  · rw [ht]
    exact h.writeIndex_le
  · rw [ht]
    exact h.counted
  · rw [ht]
    simp only [weight_pushing, Pc.switching]
    omega
  · simp only [ht, weight_pushing, Pc.switching]
    omega

theorem unlock (h : Switching s) (ht : s.producers t = .pushing p .unlock) :
    Switching ((s.setQueue s.queue.release).leave t) := by
  have h₁ : Switching (s.setQueue s.queue.release) :=
    h.setQueue rfl (fun _ => rfl) rfl rfl rfl
  have ht₁ : (s.setQueue s.queue.release).producers t = .pushing p .unlock := ht
  refine h₁.goto .idle (by rintro _ _ ⟨⟩) ?_ ?_ ?_
  · rw [ht₁]; rfl
  · rw [ht₁]; rfl
  · rw [ht₁]
    exact h₁.writeIndex_le

/-- What every step keeps, provided `m_writeIndex` does not wrap. -/
theorem step (h : Switching s) {l : Label T α} (hroom : NoWrap s l) (hs : Step s l s') :
    Switching s' := by
  cases hs with
  | begin t a ht => exact h.begin ht
  | claim t p ht hw => exact h.claim ht hw
  | discard t p ht hw => exact h.discard ht hw (hroom t p rfl ht)
  | spin t => exact h
  | wait hc => exact h
  | retry t p ht hw => exact h.retry ht hw
  | load t p w b ht hb => exact h.load ht hb
  | construct t p b w ht => exact h.construct ht
  | publish t p b w ht => exact h.publish ht
  | countLast t p b ht hfull => exact h.count ht (.inl ⟨hfull, rfl⟩)
  | count t p b ht hfull => exact h.count ht (.inr ⟨hfull, rfl⟩)
  | lock t p ht hflag => exact h.lock ht
  | alloc t p ht => exact h.alloc ht
  | badAlloc t p ht => exact h.badAlloc ht
  | setWriteBuffer t p next ht => exact h.setWriteBuffer ht
  | enqueue t p next ht => exact h.enqueue ht
  | resetIndex t p ht => exact h.resetIndex ht
  | unlock t p ht => exact h.unlock ht
  | tryPopFront r hc hr => exact h.await _ rfl rfl rfl rfl rfl
  | tryPop r b hc hr => exact h.await _ rfl rfl rfl rfl rfl
  | lockFront hc hflag => exact h.await _ rfl rfl rfl rfl rfl
  | front hc => exact h.await _ rfl rfl rfl rfl rfl
  | noFront hc => exact h.await _ rfl rfl rfl rfl rfl
  | unlockFront b hc => exact h.await _ rfl rfl rfl rfl rfl
  | loadWritten b hc hw => exact h.await _ rfl rfl rfl rfl rfl
  | loadEmpty b hc hw => exact h.await _ rfl rfl rfl rfl rfl
  | move b c hc hcell => exact (h.afterMove b c).advance
  | lockPop hc hflag => exact h.await _ rfl rfl rfl rfl rfl
  | pop b rest hc hb => exact h.afterPop hb
  | unlockPop hc => exact h.await _ rfl rfl rfl rfl rfl

/-- With fewer than `2 ^ 32 - Buffer::size` threads `m_writeIndex` never wraps. -/
theorem noWrap (h : Switching s) (hcard : Fintype.card T + Buffer.size < 2 ^ 32)
    (l : Label T α) : NoWrap s l := by
  intro t p _ ht
  have hle := h.writeIndex_le
  have hu := total_update s t (.pushing p .spin) Pc.spinning
  rw [ht, weight_pushing, weight_pushing] at hu
  have hspin : { s with producers := Function.update s.producers t (.pushing p .spin) }.total
      Pc.spinning ≤ Fintype.card T := by
    refine Threads.total_le_card fun x => ?_
    cases x with
    | idle => exact Nat.zero_le 1
    | pushing q pc => cases pc <;> simp [Pc.spinning]
  simp only [Pc.spinning] at hu hspin
  omega

end Switching

end QueueBuffer

end ZephyrLog
