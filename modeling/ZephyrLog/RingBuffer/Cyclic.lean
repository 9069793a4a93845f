import ZephyrLog.RingBuffer.Fifo

/-!
# The slots of the ring across the wrap of its counters

`push` and `tryPop` read 32-bit counters modulo the ring size.  Both counters wrap at the same
number, so equal counts address equal slots (`readSlot_of_reachable`).  But the slots of consecutive
claims stay apart across the wrap only for the sizes that divide `2 ^ 32`: with any other size the
producers, never more than a ring ahead of the consumer, overwrite an unread line when the counter
wraps (`exists_overwritten`).  Producers that were more than a ring ahead at some time overwrite a
line of a ring that is not full with any size (`exists_overwritten_only`).
-/

namespace ZephyrLog

namespace RingBuffer

variable {α T : Type} {N : ℕ}

/-- The slots of the `N` consecutive claims from number `j` on are pairwise distinct. -/
def SlotsDistinct (N j : ℕ) : Prop :=
  ∀ a < N, ∀ b < N, slotOf N (j + a) = slotOf N (j + b) → a = b

theorem slotsDistinct_iff (hN : 0 < N) (hlt : N < 2 ^ 32) (j : ℕ) :
    SlotsDistinct N j ↔ N ∣ 2 ^ 32 ∨ j % 2 ^ 32 + N ≤ 2 ^ 32 := by
  unfold SlotsDistinct slotOf
  simp only [BitVec.toNat_ofNat]
  exact counter_window_iff hN hlt.le j

section Runs

variable [DecidableEq T] {s : System T α} {guard : System T α → Label T α → Prop}

theorem readIndex_of_reachable (h : (machine T α N).Reachable guard s) :
    s.ring.readIndex = BitVec.ofNat 32 s.popped.length := by
  refine h.invariant (P := fun s => s.ring.readIndex = BitVec.ofNat 32 s.popped.length) rfl
    fun s l s' hread _ hs => ?_
  rcases step_cases hs with ⟨t, a, -, -, rfl⟩ | ⟨t, i, e, -, -, rfl⟩ | ⟨-, rfl⟩
  · exact hread
  · exact hread
  · by_cases hu : s.ring.Unread s.ring.readSlot
    · rw [afterPop_of_unread hu]
      simp only [advance, hread, List.length_append, List.length_singleton, BitVec.ofNat_add]
      rfl
    · rwa [afterPop_of_not_unread hu]

/-- After `m` successful pops `tryPop` addresses the slot of claim number `m`. -/
theorem readSlot_of_reachable (h : (machine T α N).Reachable guard s) :
    s.ring.readSlot = slotOf N s.popped.length := by
  rw [readSlot, readIndex_of_reachable h, (Tickets.of_reachable h).size, slotOf]

theorem push_reaches (hquiet : s.NoPushInFlight) (hroom : s.claims.length < s.popped.length + N)
    (t : T) (a : α) : (machine T α N).Reaches (NotOverrun N) s (s.call (.push t a)) := by
  refine .tail (.store t) (.single (.claim t a) (fun _ _ _ => hroom) (t := s.afterClaim t a) ?_)
    (fun _ _ hl => by cases hl) ?_
  · show s.step (.claim t a) = _
    simp [System.step, hquiet t]
  · show (s.afterClaim t a).step (.store t) = _
    simp [System.step, System.afterClaim, System.call, claim]

theorem pop_reaches (s : System T α) : (machine T α N).Reaches (NotOverrun N) s s.afterPop :=
  .single .tryPop (fun _ _ hl => by cases hl) rfl

/-- `n` lines have been pushed and `m` of them popped, with no push in flight. -/
structure Counts (N : ℕ) (s : System T α) (n m : ℕ) : Prop where
  reachable : (machine T α N).Reachable (NotOverrun N) s
  quiet : s.NoPushInFlight
  claims : s.claims.length = n
  popped : s.popped.length = m

theorem Counts.push {n m : ℕ} (h : Counts N s n m) (hroom : n < m + N) (t : T) (a : α) :
    Counts N (s.call (.push t a)) (n + 1) m where
  reachable :=
    h.reachable.trans (push_reaches h.quiet (by rw [h.claims, h.popped]; exact hroom) t a)
  quiet := noPushInFlight_call h.quiet _
  claims := by simp [System.call, System.afterStore, System.afterClaim, h.claims]
  popped := h.popped

/-- Each of `n` lines has been popped before the next was pushed. -/
theorem exists_counts_drained (hN : 0 < N) (t : T) (a : α) (n : ℕ) :
    ∃ s : System T α, Counts N s n n := by
  induction n with
  | zero => exact ⟨.init N, .refl, fun _ => rfl, rfl, rfl⟩
  | succ n ih =>
    obtain ⟨s, h⟩ := ih
    have h' := h.push (by omega) t a
    -- the line just pushed is in the slot that `tryPop` looks at
    have hslot : s.ring.writeSlot = (s.call (.push t a)).ring.readSlot := by
      rw [readSlot_of_reachable h'.reachable, h'.popped,
        (Tickets.of_reachable h.reachable).writeSlot, h.claims]
    have hu : (s.call (.push t a)).ring.Unread (s.call (.push t a)).ring.readSlot := by
      rw [← hslot, ring_call_push]
      exact (unread_push _ _ _).2 (.inl rfl)
    refine ⟨_, h'.reachable.trans (pop_reaches _), noPushInFlight_call h'.quiet .tryPop, ?_, ?_⟩
    · rw [afterPop_of_unread hu]
      exact h'.claims
    · simp [afterPop_of_unread hu, h'.popped]

/-- From there on `n` lines are pushed and none is popped: all their slots are unread. -/
theorem exists_counts_ahead (hN : 0 < N) (t : T) (a : α) (j : ℕ) {n : ℕ} (hn : n ≤ N) :
    ∃ s : System T α, Counts N s (j + n) j ∧ ∀ k < n, s.ring.Unread (slotOf N (j + k)) := by
  induction n with
  | zero =>
    obtain ⟨s, h⟩ := exists_counts_drained hN t a j
    exact ⟨s, h, fun k hk => absurd hk (Nat.not_lt_zero k)⟩
  | succ n ih =>
    obtain ⟨s, h, hu⟩ := ih (by omega)
    refine ⟨_, h.push (by omega) t a, fun k hk => ?_⟩
    rw [ring_call_push, unread_push, (Tickets.of_reachable h.reachable).writeSlot, h.claims]
    rcases Nat.lt_succ_iff_lt_or_eq.1 hk with hlt | rfl
    · exact .inr (hu k hlt)
    · exact .inl rfl

/-- A push into an unread slot overwrites the line there. -/
theorem overwritten_push (t : T) (a : α) (h : s.ring.Unread s.ring.writeSlot) :
    (s.call (.push t a)).overwritten =
      s.overwritten ++ [((s.ring.ring s.ring.writeSlot).logline, ⟨s.claims.length, a⟩)] :=
  if_pos h

/-- Two claims of a window on one slot: the second overwrites the line of the first. -/
theorem exists_overwritten (hN : 0 < N) (t : T) (a : α) {j : ℕ} (h : ¬ SlotsDistinct N j) :
    ∃ s : System T α, (machine T α N).Reachable (NotOverrun N) s ∧ s.overwritten ≠ [] := by
  obtain ⟨x, y, hxy, hy, hslot⟩ : ∃ x y, x < y ∧ y < N ∧ slotOf N (j + x) = slotOf N (j + y) := by
    simp only [SlotsDistinct, not_forall] at h
    obtain ⟨x, hx, y, hy, hslot, hne⟩ := h
    rcases Nat.lt_or_gt_of_ne hne with hlt | hgt
    · exact ⟨x, y, hlt, hy, hslot⟩
    · exact ⟨y, x, hgt, hx, hslot.symm⟩
  obtain ⟨s, hc, hu⟩ := exists_counts_ahead (T := T) hN t a j hy.le
  refine ⟨_, (hc.push (by omega) t a).reachable, ?_⟩
  have hw : s.ring.Unread s.ring.writeSlot := by
    rw [(Tickets.of_reachable hc.reachable).writeSlot, hc.claims, ← hslot]
    exact hu x hxy
  rw [overwritten_push t a hw]
  exact List.append_ne_nil_of_right_ne_nil _ (List.cons_ne_nil _ _)

/-- When every line has been popped no slot is unread. -/
theorem Counts.not_unread {n : ℕ} (h : Counts N s n n) (hN : N ∣ 2 ^ 32) (i : ℕ) :
    ¬ s.ring.Unread i := by
  intro hu
  have ht := Tickets.of_reachable h.reachable
  obtain ⟨e, he, hline, -⟩ := ht.unread i hu
  have hge := (InOrder.of_reachable hN h.reachable).unread i e hu hline
  have hlt := ht.ticket_lt_of_mem he
  rw [h.popped] at hge
  rw [h.claims] at hlt
  omega

/-- A whole push in any state without a push in flight. -/
theorem reachable_push (h : (machine T α N).Reachable Machine.anyStep s)
    (hquiet : s.NoPushInFlight) (t : T) (a : α) :
    (machine T α N).Reachable Machine.anyStep (s.call (.push t a)) ∧
      (s.call (.push t a)).claims.length = s.claims.length + 1 ∧
      (s.call (.push t a)).popped = s.popped ∧
      ∀ i, (s.call (.push t a)).ring.Unread i ↔
        i = slotOf N s.claims.length ∨ s.ring.Unread i := by
  refine ⟨h.trans (.of_exec _ (fun _ _ _ => trivial) (exec_labels hquiet (.push t a))), ?_, rfl,
    fun i => ?_⟩
  · simp [System.call, System.afterStore, System.afterClaim]
  · rw [ring_call_push, unread_push, (Tickets.of_reachable h).writeSlot]

/-- Also a ring of two slots loses a line that is the only one, when it was overrun before: just
before the counter wraps a third claim overwrites the first and is popped in its place, and the
first claim after the wrap overwrites the second. -/
theorem exists_overwritten_only (t : T) (a : α) : ∃ s : System T α,
    (machine T α 2).Reachable Machine.anyStep s ∧ s.claims.length = 2 ^ 32 ∧
      s.ring.Unread 0 ∧ ¬ s.ring.Unread 1 ∧
      (s.call (.push t a)).overwritten ≠ s.overwritten := by
  obtain ⟨s, h⟩ := exists_counts_drained (N := 2) Nat.two_pos t a (2 ^ 32 - 3)
  have hnone := h.not_unread (by decide)
  obtain ⟨h₁, hclaims₁, hpopped₁, hu₁⟩ :=
    reachable_push (h.reachable.mono fun _ _ _ => trivial) h.quiet t a
  have quiet₁ := noPushInFlight_call h.quiet (.push t a)
  obtain ⟨h₂, hclaims₂, hpopped₂, hu₂⟩ := reachable_push h₁ quiet₁ t a
  have quiet₂ := noPushInFlight_call quiet₁ (.push t a)
  obtain ⟨h₃, hclaims₃, hpopped₃, hu₃⟩ := reachable_push h₂ quiet₂ t a
  generalize (s.call (.push t a)).call (.push t a) = s₂ at *
  generalize s₂.call (.push t a) = s₃ at *
  rw [h.claims] at hclaims₁ hu₁
  rw [hclaims₁] at hclaims₂ hu₂
  rw [hclaims₂] at hclaims₃ hu₃
  have hread : s₃.ring.readSlot = 1 := by
    rw [readSlot_of_reachable h₃, hpopped₃, hpopped₂, hpopped₁, h.popped]
    decide
  have hu (i : ℕ) : s₃.ring.Unread i ↔ i = 1 ∨ i = 0 := by
    rw [hu₃, hu₂, hu₁, or_iff_left (hnone i)]
    have hslots : slotOf 2 (2 ^ 32 - 3 + 1 + 1) = 1 ∧ slotOf 2 (2 ^ 32 - 3 + 1) = 0 ∧
        slotOf 2 (2 ^ 32 - 3) = 1 := by decide
    rw [hslots.1, hslots.2.1, hslots.2.2]
    tauto
  have hring : s₃.afterPop.ring = s₃.ring.advance :=
    congrArg System.ring (afterPop_of_unread (by rw [hread, hu]; exact .inl rfl))
  have h₄ : (machine T α 2).Reachable Machine.anyStep s₃.afterPop := .tail .tryPop h₃ trivial rfl
  have hu₀ : s₃.afterPop.ring.Unread 0 := by
    rw [hring, unread_advance, hread, hu]
    exact ⟨Nat.zero_ne_one, .inr rfl⟩
  refine ⟨s₃.afterPop, h₄, hclaims₃, hu₀, ?_, ?_⟩
  · rw [hring, unread_advance, hread]
    exact fun hone => hone.1 rfl
  · have hslot : slotOf 2 (2 ^ 32 - 3 + 1 + 1 + 1) = 0 := by decide
    have hwrite := (Tickets.of_reachable h₄).writeSlot
    rw [show s₃.afterPop.claims.length = _ from hclaims₃, hslot] at hwrite
    rw [overwritten_push t a (hwrite ▸ hu₀)]
    simp

end Runs

/-- Push and pop number `m` address the slot of `m`.  The slots of the `N` claims from `j` on are
distinct exactly when `N` divides `2 ^ 32` or the counter does not wrap among them; and a ring whose
producers are never more than `N` lines ahead overwrites no line exactly when `N` divides
`2 ^ 32`. -/
theorem slots_cyclic_iff [DecidableEq T] (t : T) (a : α) (hN : 1 ≤ N) (hlt : N < 2 ^ 32) :
    (∀ s : System T α, (machine T α N).Reachable Machine.anyStep s →
        s.ring.writeSlot = slotOf N s.claims.length ∧ s.ring.readSlot = slotOf N s.popped.length) ∧
      (∀ j, SlotsDistinct N j ↔ N ∣ 2 ^ 32 ∨ j % 2 ^ 32 + N ≤ 2 ^ 32) ∧
      ((∀ s : System T α, (machine T α N).Reachable (NotOverrun N) s → s.overwritten = []) ↔
        N ∣ 2 ^ 32) := by
  refine ⟨fun s h => ⟨(Tickets.of_reachable h).writeSlot, readSlot_of_reachable h⟩,
    slotsDistinct_iff hN hlt, fun hintact => ?_,
    fun hdvd s h => (InOrder.of_reachable hdvd h).intact⟩
  by_contra hdvd
  have hwrap : ¬ SlotsDistinct N (2 ^ 32 - 1) := by
    rw [slotsDistinct_iff hN hlt, not_or]
    refine ⟨hdvd, fun hroom => hdvd ?_⟩
    rw [Nat.le_antisymm (show N ≤ 1 by omega) hN]
    exact one_dvd _
  obtain ⟨s, hs, hover⟩ := exists_overwritten hN t a hwrap
  exact hover (hintact s hs)

/-- A power of two, at the claims around the wrap. -/
theorem slots_cyclic_iff_4096 : SlotsDistinct 4096 (2 ^ 32 - 1) :=
  ((slots_cyclic_iff () () (by decide) (by decide)).2.1 _).2 (.inl (by decide))

/-- In a ring of three slots the last claim before the wrap and the first after it share slot 0, and
a line is overwritten although the ring was never full.  In a ring of two slots, which has been
overrun, the first claim after the wrap overwrites the only unread line. -/
theorem exists_slot_shared : ¬ SlotsDistinct 3 (2 ^ 32 - 1) ∧
    (∃ s : System Unit Unit, (machine Unit Unit 3).Reachable (NotOverrun 3) s ∧
      s.overwritten ≠ []) ∧
    ∃ s : System Unit Unit, (machine Unit Unit 2).Reachable Machine.anyStep s ∧
      s.claims.length = 2 ^ 32 ∧ s.ring.Unread 0 ∧ ¬ s.ring.Unread 1 ∧
        (s.call (.push () ())).overwritten ≠ s.overwritten := by
  have hshared : ¬ SlotsDistinct 3 (2 ^ 32 - 1) := by
    intro h
    exact absurd (h 0 (by decide) 1 (by decide) (by decide)) (by decide)
  exact ⟨hshared, exists_overwritten (by decide) () () hshared, exists_overwritten_only () ()⟩

end RingBuffer

end ZephyrLog
