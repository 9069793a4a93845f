import ZephyrLog.Lib.Simulation
import ZephyrLog.RingBuffer.Locked
import ZephyrLog.RingBuffer.Fifo
import ZephyrLog.RingBuffer.Conservation

/-!
# The spin locks make the ring's steps atomic

With its locks the ring does what the ring does whose `store` and `tryPop` are one step each: a
`push` takes effect when it marks its item, a `tryPop` when it looks at the mark.  In between an
item differs from the one of the atomic ring only while its lock is held (`Refines`), and no two
parties hold the lock of one item (`Exclusive`).  So the locked ring inherits what holds of the
atomic one.
-/

namespace ZephyrLog

namespace RingBuffer

namespace Locked

variable {T α : Type} {N : ℕ}

/-! ## At most one party inside a critical section -/

section Holding

variable {s s' : System T α} {t : T} {p : Producer (Entry α)} {c : Consumer}

theorem holds_consumer (s : System T α) : s.holds none = s.consumer.holds := rfl

theorem holds_producer (s : System T α) (t : T) : s.holds (some t) = (s.producers t).holds := rfl

theorem holds_await [DecidableEq T] (s : System T α) (c : Consumer) :
    (s.await c).holds = Function.update s.holds none c.holds :=
  parties_update_other _ _ _

theorem holds_setProducer [DecidableEq T] (s : System T α) (t : T) (p : Producer (Entry α)) :
    (s.setProducer t p).holds = Function.update s.holds (some t) p.holds := by
  rw [System.holds, System.holds, ← parties_update_thread]
  congr 1
  funext u
  by_cases h : u = t
  · subst h
    simp [System.setProducer]
  · simp [System.setProducer, h]

/-- The locks of a system whose consumer holds what it held. -/
theorem holds_await_same (hc : c.holds = s.consumer.holds) : (s.await c).holds = s.holds := by
  unfold System.holds
  rw [System.await, hc]

theorem holds_setProducer_same [DecidableEq T] (hp : p.holds = (s.producers t).holds) :
    (s.setProducer t p).holds = s.holds := by
  rw [holds_setProducer, hp, ← holds_producer, Function.update_eq_self]

/-- The flags are those of spin locks. -/
def Excluded (s : System T α) : Prop := Exclusive s.flags s.holds

theorem Excluded.init : Excluded (System.init N : System T α) := by
  have h : (System.init N : System T α).holds = fun _ => none := by
    funext p
    cases p <;> rfl
  rw [Excluded, h]
  exact Exclusive.init

variable [DecidableEq T]

theorem Excluded.step (h : Excluded s) {l : Label T α} (hs : Step s l s') : Excluded s' := by
  unfold Excluded at h ⊢
  cases hs with
  | spin t i e ht hflag => exact h
  | wait i hc hflag => exact h
  | claim t a ht =>
    have heq : (s.afterClaim t a).holds = s.holds :=
      holds_setProducer_same (s := s) (p := .pushing s.ring.claim.1 ⟨s.entries.length, a⟩ .acquire)
        (by rw [ht]; rfl)
    rw [heq]
    exact h
  | acquire t i e ht hflag =>
    rw [holds_setProducer]
    exact h.acquire (by rw [holds_producer, ht]; rfl) hflag
  | move t i e ht =>
    rw [holds_setProducer_same (s := s.setItem i _) (by rw [System.setItem, ht]; rfl)]
    exact h
  | mark t i e ht =>
    rw [holds_setProducer_same (s := s.setItem i _) (by rw [System.setItem, ht]; rfl)]
    exact h
  | release t i e ht =>
    rw [holds_setProducer]
    exact h.release (by rw [holds_producer, ht]; rfl)
  | tryPop r hc =>
    rw [holds_await_same (by rw [hc]; rfl)]
    exact h
  | lock i hc hflag =>
    rw [holds_await]
    exact h.acquire (by rw [holds_consumer, hc]; rfl) hflag
  | found i hc hu =>
    rw [holds_await_same (by rw [hc]; rfl)]
    exact h
  | empty i hc hu =>
    rw [holds_await_same (by rw [hc]; rfl)]
    exact h
  | moveOut i hc =>
    rw [holds_await_same (s := (s.receive _).setItem i _)
      (by rw [System.setItem, System.receive, hc]; rfl)]
    exact h
  | clear i hc =>
    rw [holds_await_same (s := (s.setItem i _).advance)
      (by rw [System.advance, System.setItem, hc]; rfl)]
    exact h
  | unlock i result hc =>
    rw [holds_await]
    exact h.release (by rw [holds_consumer, hc]; rfl)

end Holding

/-! ## The atomic ring -/

/-- What the producer of the atomic ring does: its line is stored when the item is marked. -/
def Producer.view : Producer α → RingBuffer.Producer α
  | .idle => .idle
  | .pushing _ _ .release => .idle
  | .pushing i e _ => .storing i e

/-- 1 while the consumer has found a line and has not yet advanced `m_readIndex`. -/
def Consumer.found : Consumer → ℕ
  | .move _ | .clear _ => 1
  | _ => 0

/-- The item that the consumer works on and has not left. -/
def Consumer.cursor : Consumer → Option ℕ
  | .acquire i | .check i | .move i | .clear i => some i
  | _ => none

/-- The line that the consumer has found and not yet moved out. -/
def System.finding (s : System T α) : List (Cell (Entry α)) :=
  match s.consumer with
  | .move i => [(s.ring.ring i).logline]
  | _ => []

/-- No operation on the item is half done. -/
def System.Settled (s : System T α) (i : ℕ) : Prop :=
  (∀ t e, s.producers t ≠ .pushing i e .mark) ∧ s.consumer ≠ .move i ∧ s.consumer ≠ .clear i

/-- What the item `i` of the atomic ring holds. -/
structure ItemRefines (s : System T α) (a : RingBuffer.System T α) (i : ℕ) : Prop where
  marking : ∀ t e, s.producers t = .pushing i e .mark →
    (s.ring.ring i).logline = .line e ∧ (a.ring.ring i).written = (s.ring.ring i).written
  moving : s.consumer = .move i → a.ring.ring i = ⟨false, .movedFrom⟩
  clearing : s.consumer = .clear i →
    (s.ring.ring i).logline = .movedFrom ∧ a.ring.ring i = ⟨false, .movedFrom⟩
  settled : s.Settled i → a.ring.ring i = s.ring.ring i

/-- The state `a` of the atomic ring belongs to the state `s`. -/
structure Refines (s : System T α) (a : RingBuffer.System T α) : Prop where
  size : a.ring.size = s.ring.size
  writeIndex : a.ring.writeIndex = s.ring.writeIndex
  readIndex : a.ring.readIndex = s.ring.readIndex + BitVec.ofNat 32 s.consumer.found
  cursor : ∀ i, s.consumer.cursor = some i → i = s.ring.readSlot
  producers : ∀ t, a.producers t = (s.producers t).view
  entries : a.entries = s.entries
  popped : a.popped = s.popped ++ s.finding
  items : ∀ i, ItemRefines s a i

section Holders

variable {s s' : System T α} {a a' : RingBuffer.System T α} {t : T} {i : ℕ} {e : Entry α}

/-- An operation on another item. -/
theorem ItemRefines.congr (h : ItemRefines s a i) (hitem : s'.ring.ring i = s.ring.ring i)
    (hatomic : a'.ring.ring i = a.ring.ring i)
    (hmark : ∀ t e, s'.producers t = .pushing i e .mark ↔ s.producers t = .pushing i e .mark)
    (hmove : s'.consumer = .move i ↔ s.consumer = .move i)
    (hclear : s'.consumer = .clear i ↔ s.consumer = .clear i) : ItemRefines s' a' i where
  marking := fun t e ht => by
    rw [hitem, hatomic]
    exact h.marking t e ((hmark t e).1 ht)
  moving := fun hc => by
    rw [hatomic]
    exact h.moving (hmove.1 hc)
  clearing := fun hc => by
    rw [hitem, hatomic]
    exact h.clearing (hclear.1 hc)
  settled := by
    rintro ⟨hproducers, hnotMove, hnotClear⟩
    rw [hitem, hatomic]
    exact h.settled ⟨fun t e ht => hproducers t e ((hmark t e).2 ht),
      fun hc => hnotMove (hmove.2 hc), fun hc => hnotClear (hclear.2 hc)⟩

/-- The lock of the item is held by a thread that has not moved its line in. -/
theorem settled_of_producer (hx : Excluded s) (ht : s.producers t = .pushing i e .move) :
    s.Settled i := by
  have hheld : s.holds (some t) = some i := by rw [holds_producer, ht]; rfl
  refine ⟨fun u f hu => ?_, fun hc => ?_, fun hc => ?_⟩
  · have huheld : s.holds (some u) = some i := by rw [holds_producer, hu]; rfl
    cases hx.unique _ _ _ hheld huheld
    cases ht.symm.trans hu
  · have hcheld : s.holds none = some i := by rw [holds_consumer, hc]; rfl
    cases hx.unique _ _ _ hheld hcheld
  · have hcheld : s.holds none = some i := by rw [holds_consumer, hc]; rfl
    cases hx.unique _ _ _ hheld hcheld

/-- The lock of the item is held by the consumer. -/
theorem not_marking (hx : Excluded s) (hc : s.consumer.holds = some i) (t : T) (e : Entry α) :
    s.producers t ≠ .pushing i e .mark := by
  intro ht
  have hheld : s.holds (some t) = some i := by rw [holds_producer, ht]; rfl
  cases hx.unique none _ _ hc hheld

/-- The item of the atomic ring that the consumer does not leave is another one. -/
theorem finding_setItem (hi : s.consumer ≠ .move i) (item : Item (Entry α)) :
    (s.setItem i item).finding = s.finding := by
  unfold System.finding
  cases hc : s.consumer with
  | move j =>
    have hji : j ≠ i := by
      rintro rfl
      exact hi hc
    simp [System.setItem, hc, hji]
  | _ => simp [System.setItem, hc]

variable [DecidableEq T]

/-- A thread that does not mark the item `i` goes on without marking it. -/
theorem marks_setProducer_iff {p : Producer (Entry α)} (hp : ∀ e, p ≠ .pushing i e .mark)
    (hs : ∀ e, s.producers t ≠ .pushing i e .mark) (u : T) (e : Entry α) :
    (s.setProducer t p).producers u = .pushing i e .mark ↔
      s.producers u = .pushing i e .mark := by
  by_cases hu : u = t
  · subst hu
    simp [System.setProducer, hp, hs]
  · simp [System.setProducer, hu]

/-- The thread `t` goes on to `p`, and the atomic ring's thread with it. -/
theorem view_setProducer {p : Producer (Entry α)} {x : T → RingBuffer.Producer (Entry α)}
    (hview : p.view = x t) (hs : ∀ u ≠ t, x u = (s.producers u).view) (u : T) :
    x u = ((s.setProducer t p).producers u).view := by
  by_cases hu : u = t
  · subst hu
    simp [System.setProducer, hview]
  · simp [System.setProducer, hu, hs u hu]

end Holders

namespace Refines

variable {s s' : System T α} {a : RingBuffer.System T α} {t : T} {i : ℕ} {e : Entry α}

theorem init (N : ℕ) : Refines (System.init N : System T α) (RingBuffer.System.init N) where
  size := rfl
  writeIndex := rfl
  readIndex := rfl
  cursor := by intro i h; cases h
  producers := fun _ => rfl
  entries := rfl
  popped := rfl
  items := fun i =>
    { marking := by intro t e h; cases h
      moving := by intro h; cases h
      clearing := by intro h; cases h
      settled := fun _ => rfl }

theorem setFlag (h : Refines s a) (i : ℕ) (flag : Bool) : Refines (s.setFlag i flag) a where
  size := h.size
  writeIndex := h.writeIndex
  readIndex := h.readIndex
  cursor := h.cursor
  producers := h.producers
  entries := h.entries
  popped := h.popped
  items := fun j => (h.items j).congr rfl rfl (fun _ _ => Iff.rfl) Iff.rfl Iff.rfl

/-- The consumer goes on to an operation that neither finds a line nor moves one. -/
theorem await (h : Refines s a) {c : Consumer} (hc : c.found = 0) (hs : s.consumer.found = 0)
    (hcursor : ∀ i, c.cursor = some i → i = s.ring.readSlot) : Refines (s.await c) a := by
  have hne {c : Consumer} (hc : c.found = 0) (i : ℕ) : c ≠ .move i ∧ c ≠ .clear i := by
    refine ⟨?_, ?_⟩ <;> rintro rfl <;> cases hc
  have hfinding {s : System T α} (hs : s.consumer.found = 0) : s.finding = [] := by
    unfold System.finding
    split
    · rename_i hmove
      rw [hmove] at hs
      cases hs
    · rfl
  refine
    { size := h.size
      writeIndex := h.writeIndex
      readIndex := ?_
      cursor := hcursor
      producers := h.producers
      entries := h.entries
      popped := ?_
      items := fun i => (h.items i).congr rfl rfl (fun _ _ => Iff.rfl)
        (iff_of_false (hne hc i).1 (hne hs i).1) (iff_of_false (hne hc i).2 (hne hs i).2) }
  · rw [h.readIndex, hs]
    show _ = s.ring.readIndex + BitVec.ofNat 32 c.found
    rw [hc]
  · have hawait : (s.await c).finding = [] := hfinding hc
    rw [h.popped, hfinding hs, hawait]
    rfl

variable [DecidableEq T]

/-- A thread goes on to an operation on its flag, or from one. -/
theorem setProducer (h : Refines s a) {p : Producer (Entry α)}
    (hview : p.view = (s.producers t).view) (hp : ∀ i e, p ≠ .pushing i e .mark)
    (hs : ∀ i e, s.producers t ≠ .pushing i e .mark) : Refines (s.setProducer t p) a where
  size := h.size
  writeIndex := h.writeIndex
  readIndex := h.readIndex
  cursor := h.cursor
  producers := view_setProducer (hview.trans (h.producers t).symm) fun u _ => h.producers u
  entries := h.entries
  popped := h.popped
  items := fun i =>
    (h.items i).congr rfl rfl (marks_setProducer_iff (hp i) (hs i)) Iff.rfl Iff.rfl

/-- The line is moved into the item. -/
theorem move (h : Refines s a) (hx : Excluded s) (ht : s.producers t = .pushing i e .move) :
    Refines ((s.setItem i ⟨(s.ring.ring i).written, .line e⟩).setProducer t (.pushing i e .mark))
      a := by
  have hsettled := settled_of_producer hx ht
  have hitem := (h.items i).settled hsettled
  refine
    { size := h.size
      writeIndex := h.writeIndex
      readIndex := h.readIndex
      cursor := h.cursor
      producers := view_setProducer ?_ fun u _ => h.producers u
      entries := h.entries
      popped := h.popped.trans (congrArg _ (finding_setItem hsettled.2.1 _).symm)
      items := fun j => ?_ }
  · rw [h.producers, ht]
    rfl
  · by_cases hji : j = i
    · subst hji
      refine ⟨fun u f hu => ?_, fun hc => absurd hc hsettled.2.1,
        fun hc => absurd hc hsettled.2.2, fun hj => ?_⟩
      · have hut : u = t := by
          by_contra hne
          exact hsettled.1 u f (by simpa [System.setProducer, System.setItem, hne] using hu)
        subst hut
        simp only [System.setProducer, Function.update_self, Producer.pushing.injEq] at hu
        obtain ⟨-, rfl, -⟩ := hu
        simp [System.setProducer, System.setItem, hitem]
      · exact absurd (by simp [System.setProducer]) (hj.1 t e)
    · refine (h.items j).congr (Function.update_of_ne hji _ _) rfl
        (marks_setProducer_iff (s := s.setItem i _) (fun f => ?_) (fun f => ?_)) Iff.rfl Iff.rfl
      · simpa using fun heq => absurd heq.symm hji
      · simp [System.setItem, ht]

/-- The item is marked: the line is in the atomic ring. -/
theorem mark (h : Refines s a) (hx : Excluded s) (ht : s.producers t = .pushing i e .mark) :
    Refines ((s.setItem i ⟨true, (s.ring.ring i).logline⟩).setProducer t (.pushing i e .release))
      (a.afterStore t i e) := by
  have hheld (hc : s.consumer.holds = some i) : False := not_marking hx hc t e ht
  obtain ⟨hline, -⟩ := (h.items i).marking t e ht
  refine
    { size := h.size
      writeIndex := h.writeIndex
      readIndex := h.readIndex
      cursor := h.cursor
      producers := view_setProducer ?_ fun u hu => ?_
      entries := h.entries
      popped := h.popped.trans (congrArg _ (finding_setItem ?_ _).symm)
      items := fun j => ?_ }
  · simp [RingBuffer.System.afterStore, Producer.view]
  · simp [RingBuffer.System.afterStore, System.setItem, hu, h.producers u]
  · intro hc
    exact hheld (by rw [hc]; rfl)
  · by_cases hji : j = i
    · subst hji
      refine ⟨fun u f hu => ?_, fun hc => ?_, fun hc => ?_, fun hj => ?_⟩
      · have hut : u ≠ t := by
          rintro rfl
          simp [System.setProducer] at hu
        have hu' : s.producers u = .pushing j f .mark := by
          simpa [System.setProducer, System.setItem, hut] using hu
        have hheldu : s.holds (some u) = some j := by rw [holds_producer, hu']; rfl
        have hheldt : s.holds (some t) = some j := by rw [holds_producer, ht]; rfl
        exact absurd (Option.some.inj (hx.unique _ _ _ hheldu hheldt)) hut
      · exact (hheld (congrArg Consumer.holds hc)).elim
      · exact (hheld (congrArg Consumer.holds hc)).elim
      · show (a.ring.store j e).ring j = (s.setItem j _).ring.ring j
        rw [ring_store_self]
        simp [System.setItem, hline]
    · refine (h.items j).congr (Function.update_of_ne hji _ _) (ring_store_of_ne _ _ hji)
        (marks_setProducer_iff (s := s.setItem i _) (fun f => ?_) (fun f => ?_)) Iff.rfl Iff.rfl
      · simp
      · simpa [System.setItem, ht] using fun heq => absurd heq.symm hji

omit [DecidableEq T] in
/-- The item that the consumer looks at is the one of the atomic ring. -/
theorem check (h : Refines s a) (hx : Excluded s) (hc : s.consumer = .check i) :
    a.ring.readSlot = i ∧ a.ring.ring i = s.ring.ring i := by
  constructor
  · rw [h.cursor i (by rw [hc]; rfl), readSlot, readSlot, h.readIndex, h.size, hc]
    simp [Consumer.found]
  · refine (h.items i).settled ⟨fun t e => not_marking hx (by rw [hc]; rfl) t e, ?_, ?_⟩ <;>
      simp [hc]

omit [DecidableEq T] in
/-- The consumer finds a line: it has left the atomic ring. -/
theorem found (h : Refines s a) (hx : Excluded s) (hc : s.consumer = .check i)
    (hu : s.ring.Unread i) : Refines (s.await (.move i)) a.afterPop := by
  obtain ⟨hslot, hitem⟩ := h.check hx hc
  have hpopped := h.popped
  rw [System.finding, hc, List.append_nil] at hpopped
  have hadvance : a.afterPop = { a with
      ring := a.ring.advance
      popped := a.popped ++ [(a.ring.ring i).logline] } := by
    rw [← hslot]
    exact afterPop_of_unread (by rw [hslot, Unread, hitem]; exact hu)
  rw [hadvance]
  refine
    { size := h.size
      writeIndex := h.writeIndex
      readIndex := ?_
      cursor := fun j hj => h.cursor j (by rw [hc]; exact hj)
      producers := h.producers
      entries := h.entries
      popped := ?_
      items := fun j => ?_ }
  · show a.ring.readIndex + 1 = s.ring.readIndex + 1
    rw [h.readIndex, hc]
    simp [Consumer.found]
  · show a.popped ++ [(a.ring.ring i).logline] = s.popped ++ [(s.ring.ring i).logline]
    rw [hpopped, hitem]
  · by_cases hji : j = i
    · subst hji
      have hleft : a.ring.advance.ring j = ⟨false, .movedFrom⟩ := by
        rw [advance, hslot]
        exact Function.update_self ..
      exact
        { marking := fun t e ht => absurd ht (not_marking hx (by rw [hc]; rfl) t e)
          moving := fun _ => hleft
          clearing := by intro hclear; cases hclear
          settled := fun hj => absurd rfl hj.2.1 }
    · refine (h.items j).congr rfl (ring_advance_of_ne _ (hslot.symm ▸ hji)) (fun _ _ => Iff.rfl)
        (iff_of_false ?_ ?_) (iff_of_false ?_ ?_)
      · simpa [System.await] using fun heq => absurd heq.symm hji
      · simp [hc]
      · simp [System.await]
      · simp [hc]

omit [DecidableEq T] in
/-- A `tryPop` that finds no line leaves the atomic ring as it is. -/
theorem afterPop_of_empty (h : Refines s a) (hx : Excluded s) (hc : s.consumer = .check i)
    (hu : ¬ s.ring.Unread i) : a.afterPop = a := by
  obtain ⟨hslot, hitem⟩ := h.check hx hc
  refine afterPop_of_not_unread ?_
  rwa [hslot, Unread, hitem]

omit [DecidableEq T] in
theorem moveOut (h : Refines s a) (hx : Excluded s) (hc : s.consumer = .move i) :
    Refines (((s.receive (s.ring.ring i).logline).setItem i
      ⟨(s.ring.ring i).written, .movedFrom⟩).await (.clear i)) a := by
  refine
    { size := h.size
      writeIndex := h.writeIndex
      readIndex := ?_
      cursor := fun j hj => h.cursor j (by rw [hc]; exact hj)
      producers := h.producers
      entries := h.entries
      popped := ?_
      items := fun j => ?_ }
  · have hread := h.readIndex
    rw [hc] at hread
    exact hread
  · rw [h.popped]
    simp [System.finding, hc, System.await, System.setItem, System.receive]
  · by_cases hji : j = i
    · subst hji
      exact
        { marking := fun t e ht => absurd ht (not_marking hx (by rw [hc]; rfl) t e)
          moving := by intro hmove; cases hmove
          clearing := fun _ =>
            ⟨by simp [System.await, System.setItem], (h.items j).moving hc⟩
          settled := fun hj => absurd rfl hj.2.2 }
    · refine (h.items j).congr (Function.update_of_ne hji _ _) rfl (fun _ _ => Iff.rfl)
        (iff_of_false ?_ ?_) (iff_of_false ?_ ?_)
      · simp [System.await]
      · simpa [hc] using fun heq => absurd heq.symm hji
      · simpa [System.await] using fun heq => absurd heq.symm hji
      · simp [hc]

omit [DecidableEq T] in
theorem clear (h : Refines s a) (hx : Excluded s) (hc : s.consumer = .clear i) :
    Refines (((s.setItem i ⟨false, (s.ring.ring i).logline⟩).advance).await (.release i true))
      a := by
  obtain ⟨hline, hitem⟩ := (h.items i).clearing hc
  refine
    { size := h.size
      writeIndex := h.writeIndex
      readIndex := ?_
      cursor := by intro j hj; cases hj
      producers := h.producers
      entries := h.entries
      popped := ?_
      items := fun j => ?_ }
  · rw [h.readIndex, hc]
    simp [System.await, System.advance, System.setItem, Consumer.found]
  · rw [h.popped]
    simp [System.finding, hc, System.await, System.setItem, System.advance]
  · by_cases hji : j = i
    · subst hji
      exact
        { marking := fun t e ht => absurd ht (not_marking hx (by rw [hc]; rfl) t e)
          moving := by intro hmove; cases hmove
          clearing := by intro hclear; cases hclear
          settled := fun _ => by
            simp [System.await, System.advance, System.setItem, hline, hitem] }
    · refine (h.items j).congr (Function.update_of_ne hji _ _) rfl (fun _ _ => Iff.rfl)
        (iff_of_false ?_ ?_) (iff_of_false ?_ ?_)
      · simp [System.await]
      · simp [hc]
      · simp [System.await]
      · simpa [hc] using fun heq => absurd heq.symm hji

/-- A thread obtains an index. -/
theorem claim (h : Refines s a) (ht : s.producers t = .idle) (line : α) :
    Refines (s.afterClaim t line) (a.afterClaim t line) := by
  have hlen : a.claims.length = s.entries.length := by
    rw [← h.entries, RingBuffer.System.entries, List.length_mapIdx]
  have hslot : a.ring.writeSlot = s.ring.writeSlot := by
    rw [writeSlot, writeSlot, h.writeIndex, h.size]
  refine
    { size := h.size
      writeIndex := ?_
      readIndex := h.readIndex
      cursor := h.cursor
      producers := view_setProducer (s := s) ?_ fun u hu => ?_
      entries := ?_
      popped := h.popped
      items := fun j => ?_ }
  · show a.ring.writeIndex + 1 = s.ring.writeIndex + 1
    rw [h.writeIndex]
  · simp [RingBuffer.System.afterClaim, Producer.view, RingBuffer.claim, hslot, hlen]
  · simp [RingBuffer.System.afterClaim, hu, h.producers u]
  · rw [InOrder.entries_afterClaim, h.entries, hlen]
    rfl
  · exact (h.items j).congr rfl rfl
      (marks_setProducer_iff (s := s) (by simp) (by simp [ht])) Iff.rfl Iff.rfl

end Refines

/-! ## The refinement -/

/-- The step of the atomic ring that a step of the locked one is. -/
def answer (s : System T α) : Label T α → Option (RingBuffer.Label T α)
  | .push t line => some (.claim t line)
  | .produce t => match s.producers t with
    | .pushing _ _ .mark => some (.store t)
    | _ => none
  | .tryPop => none
  | .consume => match s.consumer with
    | .check _ => some .tryPop
    | _ => none

/-- A push begins only while the claims exceed the lines returned by less than `N`. -/
def NotOverrun (N : ℕ) (s : System T α) (l : Label T α) : Prop :=
  ∀ t line, l = .push t line → s.entries.length < s.popped.length + N

instance (N : ℕ) (s : System T α) : ∀ l, Decidable (NotOverrun N s l)
  | .push _ _ => decidable_of_iff (s.entries.length < s.popped.length + N)
    ⟨fun h _ _ _ => h, fun h => h _ _ rfl⟩
  | .produce _ | .tryPop | .consume => .isTrue fun _ _ h => by cases h

section Simulation

variable [DecidableEq T] {s s' : System T α} {a : RingBuffer.System T α}
  {guard' : RingBuffer.System T α → RingBuffer.Label T α → Prop}

/-- Every step keeps the relation, if the guard admits its answer. -/
theorem Refines.step (h : Refines s a) (hx : Excluded s) {l : Label T α} (hs : Step s l s')
    (hguard : ∀ l', answer s l = some l' → guard' a l') :
    ∃ a', (RingBuffer.machine T α N).Answers guard' a (answer s l) a' ∧ Refines s' a' := by
  cases hs with
  | claim t line ht =>
    have hidle : a.producers t = .idle := by rw [h.producers, ht]; rfl
    refine ⟨a.afterClaim t line, ⟨hguard _ rfl, ?_⟩, h.claim ht line⟩
    simp [RingBuffer.machine, RingBuffer.System.step, hidle]
  | mark t i e ht =>
    have hstoring : a.producers t = .storing i e := by rw [h.producers, ht]; rfl
    have hanswer : answer s (.produce t) = some (.store t) := by simp [answer, ht]
    rw [hanswer]
    refine ⟨a.afterStore t i e, ⟨hguard _ hanswer, ?_⟩, h.mark hx ht⟩
    simp [RingBuffer.machine, RingBuffer.System.step, hstoring]
  | found i hc hu =>
    have hanswer : answer s .consume = some .tryPop := by simp [answer, hc]
    rw [hanswer]
    exact ⟨a.afterPop, ⟨hguard _ hanswer, rfl⟩, h.found hx hc hu⟩
  | empty i hc hu =>
    have hanswer : answer s .consume = some .tryPop := by simp [answer, hc]
    rw [hanswer]
    refine ⟨a, ⟨hguard _ hanswer, ?_⟩, h.await rfl (by rw [hc]; rfl) (by intro j hj; cases hj)⟩
    exact congrArg some (h.afterPop_of_empty hx hc hu)
  | spin t i e ht hflag => exact ⟨a, by simp [answer, ht, Machine.Answers], h⟩
  | acquire t i e ht hflag =>
    refine ⟨a, by simp [answer, ht, Machine.Answers], (h.setFlag i true).setProducer ?_ ?_ ?_⟩ <;>
      simp [System.setFlag, ht, Producer.view]
  | move t i e ht => exact ⟨a, by simp [answer, ht, Machine.Answers], h.move hx ht⟩
  | release t i e ht =>
    refine ⟨a, by simp [answer, ht, Machine.Answers], (h.setFlag i false).setProducer ?_ ?_ ?_⟩ <;>
      simp [System.setFlag, ht, Producer.view]
  | tryPop r hc =>
    exact ⟨a, rfl, h.await rfl (by rw [hc]; rfl) fun j hj => (Option.some.inj hj).symm⟩
  | wait i hc hflag => exact ⟨a, by simp [answer, hc, Machine.Answers], h⟩
  | lock i hc hflag =>
    refine ⟨a, by simp [answer, hc, Machine.Answers], (h.setFlag i true).await rfl ?_ ?_⟩
    · show s.consumer.found = 0
      rw [hc]
      rfl
    · exact fun j hj => h.cursor j (by rw [hc]; exact hj)
  | moveOut i hc => exact ⟨a, by simp [answer, hc, Machine.Answers], h.moveOut hx hc⟩
  | clear i hc => exact ⟨a, by simp [answer, hc, Machine.Answers], h.clear hx hc⟩
  | unlock i result hc =>
    refine ⟨a, by simp [answer, hc, Machine.Answers], (h.setFlag i false).await rfl ?_ ?_⟩
    · show s.consumer.found = 0
      rw [hc]
      rfl
    · intro j hj
      cases hj

/-- The locked ring refines the atomic one, run under a guard that admits the answers. -/
theorem simulates (N : ℕ) {guard : System T α → Label T α → Prop}
    (hguard : ∀ s a l l', Refines s a → guard s l → answer s l = some l' → guard' a l') :
    (machine T α N).Simulates guard (RingBuffer.machine T α N) guard' answer
      fun s a => Excluded s ∧ Refines s a where
  init := ⟨.init, .init N⟩
  step := by
    rintro s l s' a ⟨hx, h⟩ hg hs
    have hstep := Step.of_step hs
    obtain ⟨a', ha', h'⟩ := h.step (N := N) hx hstep fun l' hl' => hguard s a l l' h hg hl'
    exact ⟨a', ha', hx.step hstep, h'⟩

theorem simulates_anyStep (N : ℕ) : (machine T α N).Simulates Machine.anyStep
    (RingBuffer.machine T α N) Machine.anyStep answer fun s a => Excluded s ∧ Refines s a :=
  simulates N fun _ _ _ _ _ _ _ => trivial

/-- A locked ring that is not overrun answers with an atomic ring that is not. -/
theorem simulates_notOverrun (N : ℕ) : (machine T α N).Simulates (NotOverrun N)
    (RingBuffer.machine T α N) (RingBuffer.NotOverrun N) answer
    fun s a => Excluded s ∧ Refines s a := by
  refine simulates N ?_
  rintro s a l l' h hg hl' t line rfl
  have hroom : s.entries.length < s.popped.length + N := by
    cases l with
    | push u line' => exact hg u line' rfl
    | produce u =>
      simp only [answer] at hl'
      split at hl' <;> cases hl'
    | tryPop => cases hl'
    | consume =>
      simp only [answer] at hl'
      split at hl' <;> cases hl'
  have hlen := congrArg List.length h.entries
  rw [RingBuffer.System.entries, List.length_mapIdx] at hlen
  rw [hlen, h.popped, List.length_append]
  omega

omit [DecidableEq T] in
/-- When no lock is held the rings are the same. -/
theorem Refines.of_free (h : Refines s a) (hfree : ∀ p, s.holds p = none) :
    a.ring = s.ring ∧ a.popped = s.popped := by
  have hc : s.consumer.holds = none := hfree none
  have hmove (i : ℕ) : s.consumer ≠ .move i := by
    intro heq
    rw [heq] at hc
    cases hc
  have hclear (i : ℕ) : s.consumer ≠ .clear i := by
    intro heq
    rw [heq] at hc
    cases hc
  have hfound : s.consumer.found = 0 := by
    cases hs : s.consumer with
    | move i => exact absurd hs (hmove i)
    | clear i => exact absurd hs (hclear i)
    | _ => rfl
  have hfinding : s.finding = [] := by
    unfold System.finding
    cases hs : s.consumer with
    | move i => exact absurd hs (hmove i)
    | _ => rfl
  have hring : a.ring.ring = s.ring.ring := by
    funext i
    refine (h.items i).settled ⟨fun t e ht => ?_, hmove i, hclear i⟩
    have ht' := hfree (some t)
    rw [holds_producer, ht] at ht'
    cases ht'
  have hread := h.readIndex
  rw [hfound] at hread
  refine ⟨?_, by rw [h.popped, hfinding, List.append_nil]⟩
  calc a.ring = ⟨a.ring.size, a.ring.ring, a.ring.writeIndex, a.ring.readIndex⟩ := rfl
    _ = ⟨s.ring.size, s.ring.ring, s.ring.writeIndex, s.ring.readIndex⟩ := by
      rw [h.size, hring, h.writeIndex, hread]
      simp
    _ = s.ring := rfl

end Simulation

/-- The locks make the steps atomic: in every interleaving of the single operations a flag is set
exactly while one party is inside the critical section of its item, never two are, and the marks and
looks at marks of the run are, one for one, the stores and the `tryPop`s of a run of the atomic
ring, which has the same claims, has returned the same lines up to the one that the consumer is
moving out, and is the same ring whenever no lock is held. -/
theorem atomic_of_locked [DecidableEq T] {s : System T α} {es : List (RingBuffer.Label T α)}
    (h : ((machine T α N).record fun s l => (answer s l).toList).Reachable Machine.anyStep
      (s, es)) :
    (∀ i, s.flags i = true ↔ ∃ p, s.holds p = some i) ∧
      (∀ p q i, s.holds p = some i → s.holds q = some i → p = q) ∧
      ∃ a, (RingBuffer.machine T α N).exec (RingBuffer.System.init N) es = some a ∧
        a.entries = s.entries ∧ a.popped = s.popped ++ s.finding ∧
        ((∀ p, s.holds p = none) → a.ring = s.ring) := by
  obtain ⟨a, hexec, -, hx, href⟩ := (simulates_anyStep N).trace h
  exact ⟨hx.flag_iff, hx.unique, a, hexec, href.entries, href.popped,
    fun hfree => (href.of_free hfree).1⟩

/-- Two pushes and a `tryPop` on one slot: the second push waits for the lock. -/
theorem atomic_of_locked_two : ∃ s : System Bool ℕ, s.holds (some false) = some 0 ∧
    s.holds (some true) = none ∧ s.flags 0 = true := by
  obtain ⟨s, hs, hfin⟩ := Option.map_eq_some_iff.1 (show
    ((machine Bool ℕ 1).exec (.init 1) [.push false 7, .push true 8, .produce false, .produce true,
      .produce true]).map (fun s => (s.holds (some false), s.holds (some true))) =
        some (some 0, none) from rfl)
  obtain ⟨hfalse, htrue⟩ := Prod.mk.inj hfin
  have hreach : (machine Bool ℕ 1).Reachable Machine.anyStep s :=
    .of_exec _ (fun _ _ _ => trivial) hs
  obtain ⟨es, hes⟩ := hreach.record fun s l => (answer s l).toList
  exact ⟨s, hfalse, htrue, ((atomic_of_locked hes).1 0).2 ⟨_, hfalse⟩⟩

/-- Whatever is overwritten, no line is returned twice, and none that was not pushed. -/
theorem popped_distinct [DecidableEq T] (hN : 0 < N) {s : System T α}
    (h : (machine T α N).Reachable Machine.anyStep s) :
    s.popped.Nodup ∧ ∀ c ∈ s.popped, ∃ e ∈ s.entries, c = .line e := by
  obtain ⟨a, hreach, -, href⟩ := (simulates_anyStep N).reaches h
  have ht := Tickets.of_reachable hreach
  have hc := Conserved.of_reachable hN hreach
  have hnodup : a.popped.Nodup := by
    have hstored : (a.stored.map Cell.line).Nodup := ht.nodup.map fun e f hef => Cell.line.inj hef
    rw [← Multiset.coe_nodup, hc.total, add_assoc] at hstored
    exact Multiset.coe_nodup.1 (Multiset.nodup_of_le (Multiset.le_add_right _ _) hstored)
  have hsub : ∀ c ∈ s.popped, c ∈ a.popped := fun c hmem => by
    rw [href.popped]
    exact List.mem_append_left _ hmem
  rw [href.popped] at hnodup
  refine ⟨(List.nodup_append.1 hnodup).1, fun c hmem => ?_⟩
  obtain ⟨e, he, hce⟩ := hc.mem_stored_of_mem_popped (hsub c hmem)
  exact ⟨e, href.entries ▸ ht.mem_entries he, hce⟩

/-- What the locked ring returns: lines that were pushed, none of them twice, whatever is
overwritten on the way; and, while pushes do not overrun the consumer in a ring of `2 ^ k` slots,
the first lines in the order of the claims. -/
theorem popped_of_locked [DecidableEq T] :
    (0 < N → ∀ s : System T α, (machine T α N).Reachable Machine.anyStep s →
      s.popped.Nodup ∧ ∀ c ∈ s.popped, ∃ e ∈ s.entries, c = .line e) ∧
    ∀ k ≤ 31, ∀ s : System T α, (machine T α (2 ^ k)).Reachable (NotOverrun (2 ^ k)) s →
      s.popped <+: s.entries.map Cell.line := by
  constructor
  · exact fun hN s h => popped_distinct hN h
  · intro k hk s h
    obtain ⟨a, hreach, -, href⟩ := (simulates_notOverrun (2 ^ k)).reaches h
    have ho := InOrder.of_reachable (pow_dvd_pow 2 (by omega)) hreach
    have hpre : a.popped <+: a.entries.map Cell.line := by
      rw [ho.popped]
      exact (List.take_prefix _ _).map _
    rw [href.entries, href.popped] at hpre
    exact (List.prefix_append _ _).trans hpre

/-- Two producers that hold their slots at the same time, in a locked ring of two slots. -/
theorem popped_of_locked_two : ∃ s : System Bool ℕ,
    s.popped = [.line ⟨0, 7⟩, .line ⟨1, 8⟩] ∧ s.popped.Nodup ∧
      s.popped <+: s.entries.map Cell.line := by
  obtain ⟨s, hs, hpopped⟩ := Option.map_eq_some_iff.1 (show
    (((machine Bool ℕ (2 ^ 1)).restrict (NotOverrun (2 ^ 1))).exec (.init (2 ^ 1))
      ([.push false 7, .push true 8, .produce false] ++ List.replicate 4 (.produce true) ++
        List.replicate 3 (.produce false) ++ [.tryPop] ++ List.replicate 5 .consume ++
        [.tryPop] ++ List.replicate 5 .consume)).map
      System.popped = some [.line ⟨0, 7⟩, .line ⟨1, 8⟩] by decide +kernel)
  have h : (machine Bool ℕ (2 ^ 1)).Reachable (NotOverrun (2 ^ 1)) s := .of_restrict hs
  obtain ⟨hany, hnotOverrun⟩ := popped_of_locked (T := Bool) (N := 2 ^ 1)
  exact ⟨s, hpopped, (hany (by decide) s (h.mono fun _ _ _ => trivial)).1,
    hnotOverrun 1 (by decide) s h⟩

end Locked

end RingBuffer

end ZephyrLog
