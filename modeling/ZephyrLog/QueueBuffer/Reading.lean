import ZephyrLog.QueueBuffer.Slots

/-!
# The consumer

The consumer reads the slots in the order of the claims: `Reading` ties `m_readIndex`, the buffers
deleted so far and its location to the number of lines popped, and says that these are the lines of
the first claims.  `Protocol` puts the parts of the invariant together.
-/

namespace ZephyrLog

namespace QueueBuffer

variable {T α : Type}

/-- The slots read in a buffer whose `m_buffers.pop()` is still to come. -/
def Consumer.finishing : Consumer → ℕ
  | .lockPop | .pop => Buffer.size
  | _ => 0

/-- What holds of the consumer's members while it is at a location. -/
def System.AtConsumer (s : System T α) : Consumer → Prop
  | .outside _ => ∀ b, s.queue.currentReadBuffer = some b → b = s.released.length
  | .lockFront | .front | .unlockPop => s.queue.currentReadBuffer = none
  | .unlockFront front =>
    s.queue.currentReadBuffer = none ∧ ∀ b, front = some b → b = s.released.length
  | .load b => s.queue.currentReadBuffer = some b ∧ b = s.released.length
  | .move b => s.queue.currentReadBuffer = some b ∧ b = s.released.length ∧
    s.Written b s.queue.readIndex.toNat
  | .lockPop | .pop => s.queue.currentReadBuffer = none ∧ s.queue.readIndex = 0

/-- The consumer's cursor and the lines popped agree. -/
structure Reading (s : System T α) : Prop where
  popped_length : s.popped.length =
    position s.released.length s.queue.readIndex.toNat + s.consumer.finishing
  readIndex_lt : s.queue.readIndex.toNat < Buffer.size
  popped : s.popped = (s.claims.take s.popped.length).map Cell.line
  read : ∀ b i, i < Buffer.size → position b i < s.popped.length → s.Written b i
  atConsumer : s.AtConsumer s.consumer

namespace Reading

variable {s s' : System T α}

theorem init : Reading (System.init : System T α) where
  popped_length := by
    simp [System.init, position, Consumer.finishing, new, setupNextWriteBuffer, release, resetIndex,
      enqueue, setWriteBuffer, alloc, acquire]
  readIndex_lt := size_pos
  popped := rfl
  read := by intro b i _ h; cases h
  atConsumer := by intro b h; cases h

theorem popped_length_le (h : Reading s) : s.popped.length ≤ s.claims.length := by
  have hlen := congrArg List.length h.popped
  rw [List.length_map, List.length_take] at hlen
  omega

/-- A step of a producer: it adds claims and sets flags. -/
theorem congr (h : Reading s) (hpopped : s'.popped = s.popped)
    (hreleased : s'.released = s.released) (hconsumer : s'.consumer = s.consumer)
    (hindex : s'.queue.readIndex = s.queue.readIndex)
    (hcurrent : s'.queue.currentReadBuffer = s.queue.currentReadBuffer)
    (hclaims : s.claims <+: s'.claims)
    (hwritten : ∀ b i, i < Buffer.size → s.Written b i → s'.Written b i) : Reading s' where
  popped_length := by rw [hpopped, hreleased, hindex, hconsumer]; exact h.popped_length
  readIndex_lt := by rw [hindex]; exact h.readIndex_lt
  popped := by
    obtain ⟨rest, hrest⟩ := hclaims
    rw [hpopped, ← hrest, List.take_append_of_le_length h.popped_length_le]
    exact h.popped
  read := by
    intro b i hi hlt
    rw [hpopped] at hlt
    exact hwritten b i hi (h.read b i hi hlt)
  atConsumer := by
    have hat := h.atConsumer
    rw [hconsumer]
    cases hc : s.consumer <;>
      simp only [hc, System.AtConsumer, hcurrent, hreleased, hindex] at hat ⊢
    case move b => exact ⟨hat.1, hat.2.1, hwritten _ _ h.readIndex_lt hat.2.2⟩
    all_goals exact hat

/-- A step of the consumer that neither moves a line nor deletes a buffer. -/
theorem await (h : Reading s) {q : QueueBuffer (Push T α)} {c : Consumer}
    (hheap : q.heap = s.queue.heap) (hindex : q.readIndex = s.queue.readIndex)
    (hc : c.finishing = s.consumer.finishing) (hat : (s.await q c).AtConsumer c) :
    Reading (s.await q c) where
  popped_length := by
    show s.popped.length = position s.released.length q.readIndex.toNat + c.finishing
    rw [hindex, hc]
    exact h.popped_length
  readIndex_lt := by
    show q.readIndex.toNat < _
    rw [hindex]
    exact h.readIndex_lt
  popped := h.popped
  read := by
    intro b i hi hlt
    show (q.heap b).isWritten i
    rw [hheap]
    exact h.read b i hi hlt
  atConsumer := hat

/-- The line of the slot the consumer looks at, once its flag is set, is that of the next claim. -/
theorem cell_eq (h : Reading s) (hs : Slots s) {b : ℕ} {c : Cell (Push T α)}
    (hc : s.consumer = .move b)
    (hcell : (s.queue.heap b).buffer s.queue.readIndex.toNat = some c) :
    s.popped.length = position b s.queue.readIndex.toNat ∧
      ∃ p, s.claims[s.popped.length]? = some p ∧ c = .line p := by
  have hat := h.atConsumer
  rw [hc] at hat
  obtain ⟨-, hb, hw⟩ := hat
  have hlen : s.popped.length = position b s.queue.readIndex.toNat := by
    rw [h.popped_length, hc, ← hb]
    exact Nat.add_zero _
  obtain ⟨p, hp, hslot⟩ := hs.contents b _ h.readIndex_lt hw hlen.le
  rw [← hlen] at hp
  exact ⟨hlen, p, hp, Option.some.inj (hcell.symm.trans hslot)⟩

theorem move (h : Reading s) (hs : Slots s) {b : ℕ} {c : Cell (Push T α)}
    (hc : s.consumer = .move b)
    (hcell : (s.queue.heap b).buffer s.queue.readIndex.toNat = some c) :
    Reading (s.afterMove b c).advance := by
  obtain ⟨hlen, p, hp, rfl⟩ := h.cell_eq hs hc hcell
  have hat := h.atConsumer
  rw [hc] at hat
  obtain ⟨hcur, hb, hw⟩ := hat
  have hlt := h.readIndex_lt
  have hone : (s.queue.readIndex + 1).toNat = s.queue.readIndex.toNat + 1 := by
    have := size_lt
    rw [BitVec.toNat_add]
    exact Nat.mod_eq_of_lt (by change s.queue.readIndex.toNat + 1 < 2 ^ 32; omega)
  have hlen' : (s.afterMove b (.line p)).popped.length = s.popped.length + 1 :=
    List.length_append
  have hpopped : (s.afterMove b (.line p)).popped =
      (s.claims.take (s.afterMove b (.line p)).popped.length).map Cell.line := by
    rw [hlen', List.take_add_one, hp, List.map_append, ← h.popped]
    rfl
  have hread (a i : ℕ) (hi : i < Buffer.size)
      (hai : position a i < (s.afterMove b (.line p)).popped.length) : s.Written a i := by
    rw [hlen'] at hai
    rcases Nat.lt_succ_iff_lt_or_eq.1 hai with hai | hai
    · exact h.read a i hi hai
    · obtain ⟨rfl, rfl⟩ := position_inj hi hlt (hai.trans hlen)
      exact hw
  have hwritten := written_afterMove s b (.line p)
  unfold System.advance
  split
  · next hend =>
    change (s.queue.readIndex + 1).toNat = Buffer.size at hend
    rw [hone] at hend
    exact
      { popped_length := by
          show (s.afterMove b (.line p)).popped.length =
            position s.released.length 0 + Buffer.size
          rw [hlen', hlen, ← hb]
          unfold position
          omega
        readIndex_lt := size_pos
        popped := hpopped
        read := fun a i hi hai => (hwritten a i).2 (hread a i hi hai)
        atConsumer := ⟨rfl, rfl⟩ }
  · next hend =>
    change ¬ (s.queue.readIndex + 1).toNat = Buffer.size at hend
    rw [hone] at hend
    exact
      { popped_length := by
          show (s.afterMove b (.line p)).popped.length =
            position s.released.length (s.queue.readIndex + 1).toNat + 0
          rw [hlen', hlen, ← hb, hone]
          exact (Nat.add_assoc _ _ _).trans (Nat.add_zero _).symm
        readIndex_lt := by
          show (s.queue.readIndex + 1).toNat < _
          omega
        popped := hpopped
        read := fun a i hi hai => (hwritten a i).2 (hread a i hi hai)
        atConsumer := by
          intro a ha
          change s.queue.currentReadBuffer = some a at ha
          rw [hcur, Option.some.injEq] at ha
          exact ha ▸ hb }

/-- At `m_buffers.pop()` every slot of the front buffer has been read. -/
theorem before_pop (h : Reading s) (hc : s.consumer = .pop) (i : ℕ) (hi : i < Buffer.size) :
    position s.released.length i < s.popped.length := by
  have hat := h.atConsumer
  have hlen := h.popped_length
  rw [hc] at hat
  rw [hc, hat.2] at hlen
  simp only [Consumer.finishing] at hlen
  unfold position at hlen ⊢
  change s.popped.length = _ + 0 + _ at hlen
  omega

theorem afterPop (h : Reading s) {b : ℕ} {rest : List ℕ} (hc : s.consumer = .pop) :
    Reading (s.afterPop b rest) where
  popped_length := by
    have hat := h.atConsumer
    have hlen := h.popped_length
    rw [hc] at hat
    rw [hc, hat.2] at hlen
    simp only [Consumer.finishing] at hlen
    show s.popped.length = position (s.released ++ [b]).length s.queue.readIndex.toNat + 0
    rw [hat.2, hlen, List.length_append, List.length_singleton]
    unfold position
    rw [Nat.succ_mul]
    omega
  readIndex_lt := h.readIndex_lt
  popped := h.popped
  read := fun a i hi hai => (written_afterPop s b rest a i).2 (h.read a i hi hai)
  atConsumer := by
    have hat := h.atConsumer
    rw [hc] at hat
    exact hat.1

end Reading

end QueueBuffer

end ZephyrLog
