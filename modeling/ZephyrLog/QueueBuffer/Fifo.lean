import ZephyrLog.QueueBuffer.Writes

/-!
# The buffer queue is an exactly-once queue

With `Protocol` and `Writes`, `exactly_once_fifo`: no slot of a buffer is written twice, no line is
lost or popped twice, and the lines come out in the order of their claims, which is the order of
buffers and indices and respects the order of calls that do not overlap.
-/

namespace ZephyrLog

namespace QueueBuffer

variable {T α : Type}

/-- The call has returned. -/
def System.Returned (s : System T α) (p : Push T α) : Prop :=
  p ∈ s.begun ∧ ∀ pc, s.producers p.thread ≠ .pushing p pc

/-- The line is in a slot of a buffer in `m_buffers`, with its flag set. -/
def System.Waiting (s : System T α) (p : Push T α) : Prop :=
  ∃ b ∈ s.queue.buffers, ∃ i < Buffer.size, s.Written b i ∧ s.slot b i = some (.line p)

/-- The line of `p` is popped before that of `q`. -/
def System.PoppedBefore (s : System T α) (p q : Push T α) : Prop :=
  ∃ i j : ℕ, i < j ∧ s.popped[i]? = some (.line p) ∧ s.popped[j]? = some (.line q)

/-- Every position is that of a slot. -/
theorem exists_position (n : ℕ) : ∃ b i, i < Buffer.size ∧ position b i = n :=
  ⟨n / Buffer.size, n % Buffer.size, Nat.mod_lt _ size_pos, Nat.div_add_mod' n Buffer.size⟩

section Lines

variable {s s' : System T α} {p q : Push T α}

theorem getElem?_popped (h : Reading s) {i : ℕ} :
    s.popped[i]? = some (.line p) ↔ i < s.popped.length ∧ s.claims[i]? = some p := by
  constructor
  · intro hi
    refine ⟨(List.getElem?_eq_some_iff.1 hi).1, ?_⟩
    rw [h.popped, List.getElem?_map, Option.map_eq_some_iff] at hi
    obtain ⟨q, hq, hqp⟩ := hi
    rw [List.getElem?_take] at hq
    split at hq
    · rwa [Cell.line_injective hqp] at hq
    · cases hq
  · rintro ⟨hlt, hi⟩
    rw [h.popped, List.getElem?_map, List.getElem?_take_of_lt hlt, hi]
    rfl

variable [Fintype T]

/-- A line that was claimed and not popped waits in its slot, once its flag is set. -/
theorem waiting_of_written (h : Protocol s) {b i : ℕ} (hi : i < Buffer.size)
    (hw : s.Written b i) (hle : s.popped.length ≤ position b i)
    (hp : s.claims[position b i]? = some p) : s.Waiting p := by
  obtain ⟨q, hq, hslot⟩ := h.slots.contents b i hi hw hle
  rw [hp, Option.some.injEq] at hq
  subst hq
  refine ⟨b, ?_, i, hi, hw, hslot⟩
  obtain ⟨e, he, hbuffers⟩ := Protocol.enqueued h.switching
  have hbe : b < e := by
    by_contra hge
    exact h.switching.not_isWritten (by omega) i hw
  have hmem : b ∈ s.released ++ s.queue.buffers := by
    rw [hbuffers]
    exact List.mem_range.2 hbe
  exact (List.mem_append.1 hmem).resolve_left fun hrel =>
    Nat.not_lt_of_le hle (h.position_lt_popped hrel hi)

/-- A claimed line is in flight, popped or waiting. -/
theorem accounted_of_claimed (h : Protocol s) (hp : p ∈ s.claims) :
    (∃ pc, s.producers p.thread = .pushing p pc) ∨ .line p ∈ s.popped ∨ s.Waiting p := by
  obtain ⟨n, hn⟩ := List.getElem?_of_mem hp
  obtain ⟨b, i, hi, rfl⟩ := exists_position n
  have hlt := (List.getElem?_eq_some_iff.1 hn).1
  have hwritten : s.Written b i ∨ ∃ pc, s.producers p.thread = .pushing p pc := by
    apply (h.slots.written_or_pending h.switching hi hlt).imp_right
    rintro ⟨rfl, t, q, c, ht⟩
    have hq := (h.slots.pending t q i c ht).2.1
    rw [hn, Option.some.injEq] at hq
    subst hq
    cases hx : s.producers t with
    | idle => rw [hx] at ht; cases ht
    | pushing r pc =>
      obtain ⟨hthread, -⟩ := h.history.pushing t r pc hx
      rw [hx] at ht
      have hr : r = p := by cases pc <;> cases ht <;> rfl
      subst hr
      exact ⟨pc, by rw [hthread, hx]⟩
  rcases hwritten with hw | hflight
  · rcases Nat.lt_or_ge (position b i) s.popped.length with hpop | hle
    · exact .inr (.inl (List.mem_of_getElem? ((getElem?_popped h.reading).2 ⟨hpop, hn⟩)))
    · exact .inr (.inr (waiting_of_written h hi hw hle hn))
  · exact .inl hflight

/-- Every call is in flight, or its line has been popped, or it waits. -/
theorem accounted (h : Protocol s) (hp : p ∈ s.begun) :
    (∃ pc, s.producers p.thread = .pushing p pc) ∨ .line p ∈ s.popped ∨ s.Waiting p := by
  rcases h.history.accounted p hp with hc | ⟨pc, ht, -⟩
  · exact accounted_of_claimed h hc
  · exact .inl ⟨pc, ht⟩

omit [Fintype T] in
/-- A line claimed before a popped one has been popped before it. -/
theorem poppedBefore_of_claims (h : Reading s) {i j : ℕ} (hij : i < j)
    (hp : s.claims[i]? = some p) (hq : s.popped[j]? = some (.line q)) : s.PoppedBefore p q := by
  have hj := (List.getElem?_eq_some_iff.1 hq).1
  exact ⟨i, j, hij, (getElem?_popped h).2 ⟨hij.trans hj, hp⟩, hq⟩

/-- The lines of one thread are popped in the order in which the thread pushes them. -/
theorem poppedBefore_of_thread (h : Protocol s) (hp : p ∈ s.begun) (hpq : p.thread = q.thread)
    (hlt : p.number < q.number) (hq : .line q ∈ s.popped) : s.PoppedBefore p q := by
  obtain ⟨j, hj⟩ := List.getElem?_of_mem hq
  have hqc := ((getElem?_popped h.reading).1 hj).2
  have hpc : p ∈ s.claims := by
    rcases h.history.accounted p hp with hc | ⟨pc, ht, hpc⟩
    · exact hc
    · have := h.history.unclaimed _ _ _ ht hpc q (List.mem_of_getElem? hqc) hpq.symm
      omega
  obtain ⟨i, hi⟩ := List.getElem?_of_mem hpc
  refine poppedBefore_of_claims h.reading ?_ hi hj
  obtain ⟨hilt, hip⟩ := List.getElem?_eq_some_iff.1 hi
  obtain ⟨hjlt, hjq⟩ := List.getElem?_eq_some_iff.1 hqc
  rcases Nat.lt_trichotomy i j with hij | rfl | hji
  · exact hij
  · rw [hip] at hjq
    rw [hjq] at hlt
    exact absurd hlt (Nat.lt_irrefl _)
  · have hord := List.pairwise_iff_getElem.1 h.history.ordered j i hjlt hilt hji
    rw [hip, hjq] at hord
    have := hord hpq.symm
    omega

variable [DecidableEq T]

omit [Fintype T] in
/-- Claims are never withdrawn. -/
theorem claims_extend {l : Label T α} (hs : Step s l s') : s.claims <+: s'.claims := by
  cases hs with
  | claim t p ht hw => exact List.prefix_append _ _
  | move b c hc hcell =>
    unfold System.advance
    split <;> exact List.prefix_refl _
  | _ => exact List.prefix_refl _

omit [Fintype T] in
theorem claims_extend_of_reaches {guard : System T α → Label T α → Prop}
    (h : (machine T α).Reaches guard s s') : s.claims <+: s'.claims := by
  induction h with
  | refl => exact List.prefix_refl _
  | tail l _ _ hs ih => exact ih.trans (claims_extend (Step.of_step hs))

/-- A line whose push returned before another one began is popped before it. -/
theorem poppedBefore_of_returned {guard : System T α → Label T α → Prop} (h₀ : Protocol s)
    (h : Protocol s') (hreach : (machine T α).Reaches guard s s') (hp : s.Returned p)
    (hq : q ∉ s.begun) (hpop : .line q ∈ s'.popped) : s'.PoppedBefore p q := by
  obtain ⟨rest, hrest⟩ := claims_extend_of_reaches hreach
  obtain ⟨j, hj⟩ := List.getElem?_of_mem hpop
  have hqc := ((getElem?_popped h.reading).1 hj).2
  have hpc : p ∈ s.claims := by
    rcases h₀.history.accounted p hp.1 with hc | ⟨pc, ht, -⟩
    · exact hc
    · exact absurd ht (hp.2 pc)
  obtain ⟨i, hi⟩ := List.getElem?_of_mem hpc
  have hilt := (List.getElem?_eq_some_iff.1 hi).1
  have hjge : s.claims.length ≤ j := by
    by_contra hlt
    rw [← hrest, List.getElem?_append_left (by omega)] at hqc
    exact hq (h₀.history.begun q (List.mem_of_getElem? hqc))
  refine poppedBefore_of_claims h.reading (lt_of_lt_of_le hilt hjge) ?_ hj
  rw [← hrest, List.getElem?_append_left hilt, hi]

end Lines

/-- `QueueBuffer` under any interleaving of any number of producers and one consumer: no two pushes
write the same slot; every line is in flight, popped or waiting in its buffer; no line is popped
twice; the lines popped are the first ones in the order of the claims, which is the order of buffer
and index; and they come out in thread order and in real-time order. -/
theorem exactly_once_fifo [Fintype T] [DecidableEq T]
    (hcard : Fintype.card T + Buffer.size < 2 ^ 32) {s : System T α}
    (h : (machine T α).Reachable Machine.anyStep s) :
    (s.writes.map Write.slot).Nodup ∧
      (∀ p ∈ s.begun, (∃ pc, s.producers p.thread = .pushing p pc) ∨
        .line p ∈ s.popped ∨ s.Waiting p) ∧
      s.popped.Nodup ∧
      s.popped <+: s.claims.map Cell.line ∧
      (∀ w ∈ s.writes, w.index < Buffer.size ∧
        s.claims[position w.buffer w.index]? = some w.push) ∧
      (∀ p ∈ s.begun, ∀ q, p.thread = q.thread → p.number < q.number → .line q ∈ s.popped →
        s.PoppedBefore p q) ∧
      ∀ s₀, (machine T α).Reachable Machine.anyStep s₀ →
        (machine T α).Reaches Machine.anyStep s₀ s → ∀ p q, s₀.Returned p → q ∉ s₀.begun →
          .line q ∈ s.popped → s.PoppedBefore p q := by
  have hp := Protocol.of_card hcard h
  have hw := Writes.of_card hcard h
  have hprefix : s.popped <+: s.claims.map Cell.line := by
    rw [hp.reading.popped]
    exact (List.take_prefix _ _).map _
  refine ⟨hw.nodup, fun p hpb => accounted hp hpb, ?_, hprefix, ?_, ?_, ?_⟩
  · exact (hp.history.nodup.map Cell.line_injective).sublist hprefix.sublist
  · exact fun w hwm => ⟨(hw.owner w hwm).1, (hw.owner w hwm).2.1⟩
  · exact fun p hpb q hpq hlt hq => poppedBefore_of_thread hp hpb hpq hlt hq
  · exact fun s₀ h₀ hreach p q hret hq hpop =>
      poppedBefore_of_returned (Protocol.of_card hcard h₀) hp hreach hret hq hpop

/-- Two pushes, the second of which claims its slot first, and two calls of `tryPop`. -/
theorem exactly_once_fifo_two : ∃ s : System Bool ℕ,
    (machine Bool ℕ).Reachable Machine.anyStep s ∧
      s.popped = [.line ⟨true, 1, 8⟩, .line ⟨false, 0, 7⟩] ∧
      s.popped.Nodup ∧ s.popped <+: s.claims.map Cell.line := by
  obtain ⟨s, hs, hpopped⟩ := Option.map_eq_some_iff.1 (show
    ((machine Bool ℕ).exec .init ([.push false 7, .push true 8, .produce true] ++
      List.replicate 5 (.produce false) ++ List.replicate 4 (.produce true) ++
      [.tryPop] ++ List.replicate 5 .consume ++ [.tryPop] ++ List.replicate 2 .consume)).map
      System.popped = some [.line ⟨true, 1, 8⟩, .line ⟨false, 0, 7⟩] by decide +kernel)
  have h : (machine Bool ℕ).Reachable Machine.anyStep s :=
    Machine.Reaches.of_exec _ (fun _ _ _ => trivial) hs
  obtain ⟨-, -, hnodup, hprefix, -⟩ := exactly_once_fifo (by decide) h
  exact ⟨s, h, hpopped, hnodup, hprefix⟩

end QueueBuffer

end ZephyrLog
