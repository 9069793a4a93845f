import ZephyrLog.QueueBuffer.Progress
import ZephyrLog.QueueBuffer.Fifo

/-!
# A switch whose allocation fails

`setupNextWriteBuffer` is called by the one push that counts the last line of a buffer.  When its
`make_unique` throws, the lock is released and the exception leaves `push`, but `m_writeIndex` stays
past the end and the counter stays at `Buffer::size`, so that no later push can claim an index, let
alone count the last line again.  `Stranded` is that state; no step leaves it.
-/

namespace ZephyrLog

namespace QueueBuffer

variable {T α : Type}

/-- The buffer being written is full and nobody switches it. -/
structure Stranded [Fintype T] (s : System T α) : Prop where
  counter : s.counter = Buffer.size
  switching : s.total Pc.switching = 0

namespace Stranded

variable [Fintype T] {s s' : System T α} {t : T} {p : Push T α} {pc : Pc}

theorem claimed (h : Stranded s) (hsw : Switching s) :
    s.claimed = Buffer.size ∧ s.total Pc.outstanding = 0 := by
  have hcounted := hsw.counted
  have hle := claimed_le_size s
  have hfull := h.counter
  omega

theorem size_le_writeIndex (h : Stranded s) (hsw : Switching s) :
    Buffer.size ≤ s.queue.writeIndex.toNat := by
  have hclaimed := (h.claimed hsw).1
  unfold System.claimed at hclaimed
  omega

/-- A push in flight is before its claim, or on its way out. -/
theorem pc_idle (h : Stranded s) (hsw : Switching s) (ht : s.producers t = .pushing p pc) :
    pc.outstanding = 0 ∧ pc.switching = 0 := by
  have hout := le_total Pc.outstanding ht
  have hswitch := le_total Pc.switching ht
  have hzero := (h.claimed hsw).2
  have hnone := h.switching
  omega

variable [DecidableEq T]

/-- A thread goes on and the counter stays. -/
theorem move (h : Stranded s) (s₁ : System T α) (t : T) (x : Producer T α)
    (hproducers : s₁.producers = s.producers) (hcounter : s₁.counter = s.counter)
    (hx : x.weight Pc.switching = 0) :
    Stranded { s₁ with producers := Function.update s₁.producers t x } := by
  have hu := total_update s₁ t x Pc.switching
  have htotal : s₁.total Pc.switching = s.total Pc.switching := by
    rw [System.total, hproducers]
    rfl
  have hnone := h.switching
  exact ⟨hcounter.trans h.counter, by omega⟩

omit [DecidableEq T] in
/-- A step of the consumer. -/
theorem congr (h : Stranded s) (hproducers : s'.producers = s.producers)
    (hcounter : s'.counter = s.counter) : Stranded s' := by
  refine ⟨hcounter.trans h.counter, ?_⟩
  rw [System.total, hproducers]
  exact h.switching

/-- No step leaves the state, and none claims an index. -/
theorem step (h : Stranded s) (hsw : Switching s) {l : Label T α} (hs : Step s l s') :
    Stranded s' ∧ s'.claims = s.claims := by
  have hindex := h.size_le_writeIndex hsw
  have busy {t : T} {p : Push T α} {pc : Pc} (ht : s.producers t = .pushing p pc)
      (hpc : pc.outstanding = 1 ∨ pc.switching = 1) : False := by
    have := h.pc_idle hsw ht
    omega
  cases hs with
  | begin t a ht => exact ⟨h.move (s.begin _) t (.pushing _ .claim) rfl rfl rfl, rfl⟩
  | claim t p ht hw => omega
  | discard t p ht hw => exact ⟨h.move (s.setQueue _) t (.pushing p .spin) rfl rfl rfl, rfl⟩
  | retry t p ht hw => omega
  | unlock t p ht => exact ⟨h.move (s.setQueue _) t .idle rfl rfl rfl, rfl⟩
  | load t p w b ht hb => exact (busy ht (.inl rfl)).elim
  | construct t p b w ht => exact (busy ht (.inl rfl)).elim
  | publish t p b w ht => exact (busy ht (.inl rfl)).elim
  | countLast t p b ht hfull => exact (busy ht (.inl rfl)).elim
  | count t p b ht hfull => exact (busy ht (.inl rfl)).elim
  | lock t p ht hflag => exact (busy ht (.inr rfl)).elim
  | alloc t p ht => exact (busy ht (.inr rfl)).elim
  | badAlloc t p ht => exact (busy ht (.inr rfl)).elim
  | setWriteBuffer t p next ht => exact (busy ht (.inr rfl)).elim
  | enqueue t p next ht => exact (busy ht (.inr rfl)).elim
  | resetIndex t p ht => exact (busy ht (.inr rfl)).elim
  | move b c hc hcell =>
    have h₁ : Stranded (s.afterMove b c) := by
      refine h.congr rfl ?_
      exact congrArg BitVec.toNat (onBuffer_view Buffer.count (q := s.queue)
        (f := (·.moveOut s.queue.readIndex.toNat)) rfl s.switches)
    unfold System.advance
    split
    · exact ⟨h₁.congr rfl rfl, rfl⟩
    · exact ⟨h₁.congr rfl rfl, rfl⟩
  | pop b rest hc hb =>
    refine ⟨h.congr rfl ?_, rfl⟩
    exact congrArg BitVec.toNat (onBuffer_view Buffer.count (q := s.queue)
      (f := Buffer.destroy) rfl s.switches)
  | _ => exact ⟨h.congr rfl rfl, rfl⟩

theorem of_reaches (h : Stranded s) (hp : Protocol s)
    (hcard : Fintype.card T + Buffer.size < 2 ^ 32)
    (hr : (machine T α).Reaches Machine.anyStep s s') :
    Stranded s' ∧ Protocol s' ∧ s'.claims = s.claims := by
  induction hr with
  | refl => exact ⟨h, hp, rfl⟩
  | tail l _ _ hs ih =>
    obtain ⟨h₁, hp₁, hclaims⟩ := ih
    obtain ⟨h₂, hclaims₂⟩ := h₁.step hp₁.switching (Step.of_step hs)
    exact ⟨h₂, hp₁.step (hp₁.switching.noWrap hcard l) (Step.of_step hs), hclaims₂.trans hclaims⟩

/-- A push that begins later neither stores its line nor returns. -/
theorem not_returned (h : Stranded s) (hp : Protocol s)
    (hcard : Fintype.card T + Buffer.size < 2 ^ 32)
    (hr : (machine T α).Reaches Machine.anyStep s s') (hold : p ∉ s.begun) (hnew : p ∈ s'.begun) :
    p ∉ s'.claims ∧ ¬ s'.Returned p := by
  obtain ⟨-, hp', hclaims⟩ := h.of_reaches hp hcard hr
  have hunclaimed : p ∉ s'.claims := fun hmem => hold (hp.history.begun p (hclaims ▸ hmem))
  refine ⟨hunclaimed, fun hret => ?_⟩
  obtain ⟨pc, ht, -⟩ := (hp'.history.accounted p hnew).resolve_left hunclaimed
  exact hret.2 pc ht

/-- What the exception leaves behind. -/
theorem of_badAlloc (hsw : Switching s) (hs : s.step (.badAlloc t) = some s') : Stranded s' := by
  cases Step.of_step hs with
  | badAlloc t p ht =>
    have hle := hsw.switching_le
    have hpos := le_total Pc.switching ht
    have hu := total_update s t (.pushing p .unlock) Pc.switching
    rw [ht] at hu
    simp only [weight_pushing, Pc.switching] at hu hpos
    refine ⟨hsw.full (by omega), ?_⟩
    show { s with producers := Function.update s.producers t (.pushing p .unlock) }.total _ = 0
    omega

end Stranded

section Begun

variable [DecidableEq T] {s s' : System T α}

theorem begun_extend {l : Label T α} (hs : Step s l s') : s.begun <+: s'.begun := by
  cases hs with
  | begin t a ht => exact List.prefix_append _ _
  | move b c hc hcell =>
    unfold System.advance
    split
    · exact List.prefix_rfl
    · exact List.prefix_rfl
  | _ => exact List.prefix_rfl

theorem begun_extend_of_reaches {guard : System T α → Label T α → Prop}
    (h : (machine T α).Reaches guard s s') : s.begun <+: s'.begun := by
  induction h with
  | refl => exact List.prefix_rfl
  | tail l _ _ hs ih => exact ih.trans (begun_extend (Step.of_step hs))

end Begun

/-- Once the allocation of a switch has failed, `m_writeIndex` stays past the end with nobody to
reset it, and a push that begins when no other is in flight never stores its line and never
returns, whatever steps follow. -/
theorem disabled_of_badAlloc [Fintype T] [DecidableEq T]
    (hcard : Fintype.card T + Buffer.size < 2 ^ 32) {s₀ s₁ s : System T α} {t : T}
    (h₀ : (machine T α).Reachable Machine.anyStep s₀) (hfail : s₀.step (.badAlloc t) = some s₁)
    (h : (machine T α).Reaches Machine.anyStep s₁ s) (hquiet : s.NoPushInFlight) :
    Buffer.size ≤ s.queue.writeIndex.toNat ∧
      ∀ u a s', s.step (.push u a) = some s' → ∀ s'', (machine T α).Reaches Machine.anyStep s' s'' →
        Buffer.size ≤ s''.queue.writeIndex.toNat ∧ ¬ s''.Returned ⟨u, s.begun.length, a⟩ ∧
          ∀ w ∈ s''.writes, w.push ≠ ⟨u, s.begun.length, a⟩ := by
  have hreach₁ : (machine T α).Reachable Machine.anyStep s₁ := .tail (.badAlloc t) h₀ trivial hfail
  have hstranded₁ := Stranded.of_badAlloc (Protocol.of_card hcard h₀).switching hfail
  obtain ⟨hs, hp, -⟩ := hstranded₁.of_reaches (Protocol.of_card hcard hreach₁) hcard h
  refine ⟨hs.size_le_writeIndex hp.switching, fun u a s' hpush s'' hr => ?_⟩
  have hr' : (machine T α).Reaches Machine.anyStep s s'' :=
    (Machine.Reaches.single (.push u a) trivial hpush).trans hr
  obtain ⟨hs'', hp'', -⟩ := hs.of_reaches hp hcard hr'
  have hnew : (⟨u, s.begun.length, a⟩ : Push T α) ∉ s.begun :=
    fun hmem => Nat.lt_irrefl _ (hp.history.number_lt hmem)
  have hmem : (⟨u, s.begun.length, a⟩ : Push T α) ∈ s''.begun := by
    refine (begun_extend_of_reaches hr).subset ?_
    simp only [System.step, hquiet u, Option.some.injEq] at hpush
    rw [← hpush]
    exact List.mem_append_right _ List.mem_cons_self
  obtain ⟨hunclaimed, hret⟩ := hs.not_returned hp hcard hr' hnew hmem
  refine ⟨hs''.size_le_writeIndex hp''.switching, hret, fun w hw heq => hunclaimed ?_⟩
  obtain ⟨-, hclaim, -⟩ := (Writes.of_card hcard ((hreach₁.trans h).trans hr')).owner w hw
  exact heq ▸ List.mem_of_getElem? hclaim

/-- A push fills the first buffer, the allocation of the second one fails, and the exception leaves
`push`. -/
theorem exists_badAlloc : ∃ s₀ s₁ s : System Unit Unit,
    (machine Unit Unit).Reachable Machine.anyStep s₀ ∧ s₀.step (.badAlloc ()) = some s₁ ∧
      (machine Unit Unit).Reaches Machine.anyStep s₁ s ∧ s.NoPushInFlight := by
  obtain ⟨s, hs, hl⟩ := exists_level (k := Buffer.size - 1) (by decide)
  obtain ⟨s₁, hs₁, hp⟩ := exists_published hl (by decide)
  obtain ⟨p, hprod⟩ := hp.producers
  let s₂ := (s₁.setQueue (s₁.queue.onBuffer 0 .countUp)).goto () p .lock
  let s₃ := (s₂.setQueue s₂.queue.acquire).goto () p .alloc
  let s₄ := s₃.goto () p .unlock
  have hp₂ : s₂.producers () = .pushing p .lock := producers_goto _ _ _ _
  have hp₃ : s₃.producers () = .pushing p .alloc := producers_goto _ _ _ _
  have hp₄ : s₄.producers () = .pushing p .unlock := producers_goto _ _ _ _
  have h₂ : (machine Unit Unit).step s₁ (.produce ()) = some s₂ := by
    have hfull : ((s₁.queue.heap 0).count + 1).toNat = Buffer.size := by
      rw [BitVec.toNat_add, hp.count]
      decide
    rw [step_produce hprod, System.produce, if_pos hfull]
  have h₃ : (machine Unit Unit).step s₂ (.produce ()) = some s₃ := by
    have hflag : s₂.queue.flag = false := hp.flag
    rw [step_produce hp₂, System.produce, hflag]
    rfl
  have h₄ : s₃.step (.badAlloc ()) = some s₄ := by
    simp only [System.step, hp₃]
    rfl
  have h₅ : (machine Unit Unit).step s₄ (.produce ()) =
      some ((s₄.setQueue s₄.queue.release).leave ()) := step_produce hp₄
  have hidle : ((s₄.setQueue s₄.queue.release).leave ()).producers () = .idle := by
    show Function.update s₄.producers () Producer.idle () = _
    exact Function.update_self _ _ _
  refine ⟨s₃, s₄, _, ?_, h₄, .single _ trivial h₅, fun _ => hidle⟩
  exact .tail _ (.tail _ ((hs.trans hs₁).mono fun _ _ _ => trivial) trivial h₂) trivial h₃

theorem disabled_of_badAlloc_one : ∃ s : System Unit Unit, s.NoPushInFlight ∧
    Buffer.size ≤ s.queue.writeIndex.toNat := by
  obtain ⟨s₀, s₁, s, h₀, hfail, h, hquiet⟩ := exists_badAlloc
  exact ⟨s, hquiet, (disabled_of_badAlloc (by decide) h₀ hfail h hquiet).1⟩

/-- A failed switch has left `push`, no push is in flight, and `m_writeIndex` is past the end: every
push from there on never returns. -/
theorem exists_disabled : ∃ s₀ s₁ s : System Unit Unit,
    (machine Unit Unit).Reachable Machine.anyStep s₀ ∧ s₀.step (.badAlloc ()) = some s₁ ∧
      (machine Unit Unit).Reaches Machine.anyStep s₁ s ∧ s.NoPushInFlight ∧
      Buffer.size ≤ s.queue.writeIndex.toNat ∧
      ∀ s', (machine Unit Unit).Reaches Machine.anyStep s s' →
        ∀ p ∈ s'.begun, p ∉ s.begun → p ∉ s'.claims ∧ ¬ s'.Returned p := by
  obtain ⟨s₀, s₁, s, h₀, hfail, h, hquiet⟩ := exists_badAlloc
  have hcard : Fintype.card Unit + Buffer.size < 2 ^ 32 := by decide
  have hreach₁ : (machine Unit Unit).Reachable Machine.anyStep s₁ :=
    .tail (.badAlloc ()) h₀ trivial hfail
  have hstranded₁ := Stranded.of_badAlloc (Protocol.of_card hcard h₀).switching hfail
  obtain ⟨hs, hp, -⟩ := hstranded₁.of_reaches (Protocol.of_card hcard hreach₁) hcard h
  exact ⟨s₀, s₁, s, h₀, hfail, h, hquiet, hs.size_le_writeIndex hp.switching,
    fun s' hr p hnew hold => hs.not_returned hp hcard hr hold hnew⟩

end QueueBuffer

end ZephyrLog
