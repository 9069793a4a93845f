import ZephyrLog.RingBuffer.Model
import Mathlib.Data.List.Nodup

/-!
# Claim numbers in the ring

Every claim has a number, its ticket, and the slot of ticket `c` is `slotOf N c`.  `Tickets` is the
invariant of every run, overruns and counter wrap included: each claim is either still between its
two steps in its own thread or has been stored exactly once, and an unread slot holds a stored line
whose ticket maps to it.
-/

namespace ZephyrLog

namespace RingBuffer

variable {α T : Type} {N : ℕ}

/-- The slot that claim number `c` obtains: the 32-bit counter modulo the ring size. -/
def slotOf (N c : ℕ) : ℕ := (BitVec.ofNat 32 c).toNat % N

theorem slotOf_lt (hN : 0 < N) (c : ℕ) : slotOf N c < N := Nat.mod_lt _ hN

/-- The lines pushed, in claim order, numbered. -/
def System.entries (s : System T α) : List (Entry α) := s.claims.mapIdx fun i c => ⟨i, c.line⟩

/-- Tickets, slots and the pushes in flight agree. -/
structure Tickets (N : ℕ) (s : System T α) : Prop where
  size : s.ring.size = N
  writeIndex : s.ring.writeIndex = BitVec.ofNat 32 s.claims.length
  storing : ∀ t i e, s.producers t = .storing i e → i = slotOf N e.ticket ∧ e ∉ s.stored ∧
    ∃ c, s.claims[e.ticket]? = some c ∧ c.thread = t ∧ c.line = e.line
  stored : ∀ e ∈ s.stored, ∃ c, s.claims[e.ticket]? = some c ∧ c.line = e.line
  nodup : s.stored.Nodup
  accounted : ∀ c < s.claims.length, (∃ t i e, s.producers t = .storing i e ∧ e.ticket = c) ∨
    ∃ e ∈ s.stored, e.ticket = c
  unread : ∀ i, s.ring.Unread i → ∃ e ∈ s.stored, (s.ring.ring i).logline = .line e ∧
    i = slotOf N e.ticket

namespace Tickets

variable {s : System T α}

theorem init (N : ℕ) : Tickets N (System.init N : System T α) where
  size := rfl
  writeIndex := rfl
  storing := by intro t i e h; cases h
  stored := by intro e h; cases h
  nodup := List.nodup_nil
  accounted := by intro c h; cases h
  unread := by intro i h; exact absurd h (not_unread_new N i)

theorem writeSlot (h : Tickets N s) : s.ring.writeSlot = slotOf N s.claims.length := by
  rw [RingBuffer.writeSlot, h.writeIndex, h.size, slotOf]

theorem ticket_lt_of_mem (h : Tickets N s) {e : Entry α} (he : e ∈ s.stored) :
    e.ticket < s.claims.length := by
  obtain ⟨c, hc, -⟩ := h.stored e he
  exact (List.getElem?_eq_some_iff.1 hc).1

theorem ticket_lt_of_storing (h : Tickets N s) {t : T} {i : ℕ} {e : Entry α}
    (ht : s.producers t = .storing i e) : e.ticket < s.claims.length := by
  obtain ⟨-, -, c, hc, -⟩ := h.storing t i e ht
  exact (List.getElem?_eq_some_iff.1 hc).1

theorem mem_entries (h : Tickets N s) {e : Entry α} (he : e ∈ s.stored) : e ∈ s.entries := by
  obtain ⟨c, hc, hce⟩ := h.stored e he
  refine List.mem_of_getElem? (i := e.ticket) ?_
  rw [System.entries, List.getElem?_mapIdx, hc, Option.map_some, hce]

/-- A ticket is in flight in one thread only. -/
theorem storing_inj (h : Tickets N s) {t t' : T} {i j : ℕ} {e f : Entry α}
    (ht : s.producers t = .storing i e) (ht' : s.producers t' = .storing j f)
    (hef : e.ticket = f.ticket) : t = t' := by
  obtain ⟨-, -, c, hc, hct, -⟩ := h.storing t i e ht
  obtain ⟨-, -, d, hd, hdt, -⟩ := h.storing t' j f ht'
  rw [hef, hd, Option.some.injEq] at hc
  rw [← hct, ← hdt, hc]

/-- A ticket in flight has not been stored. -/
theorem ticket_ne_of_storing (h : Tickets N s) {t : T} {i : ℕ} {e f : Entry α}
    (ht : s.producers t = .storing i e) (hf : f ∈ s.stored) : f.ticket ≠ e.ticket := by
  intro hfe
  obtain ⟨-, hne, c, hc, -, hce⟩ := h.storing t i e ht
  obtain ⟨d, hd, hdf⟩ := h.stored f hf
  rw [hfe, hc, Option.some.injEq] at hd
  subst hd
  have : f = e := by
    cases e; cases f
    simp_all
  exact hne (this ▸ hf)

theorem afterPop (h : Tickets N s) : Tickets N s.afterPop := by
  by_cases hu : s.ring.Unread s.ring.readSlot
  · rw [afterPop_of_unread hu]
    exact
      { size := h.size
        writeIndex := h.writeIndex
        storing := h.storing
        stored := h.stored
        nodup := h.nodup
        accounted := h.accounted
        unread := by
          intro j hj
          obtain ⟨hne, hold⟩ := (unread_advance _ _).1 hj
          obtain ⟨f, hf, hl, hs⟩ := h.unread j hold
          exact ⟨f, hf, by rw [ring_advance_of_ne _ hne]; exact hl, hs⟩ }
  · rwa [afterPop_of_not_unread hu]

variable [DecidableEq T]

theorem afterClaim (h : Tickets N s) {t : T} (ht : s.producers t = .idle) (a : α) :
    Tickets N (s.afterClaim t a) where
  size := h.size
  writeIndex := by
    simp only [System.afterClaim, claim, List.length_append, List.length_singleton, h.writeIndex,
      BitVec.ofNat_add]
    rfl
  storing := by
    intro t' i e ht'
    rcases storing_afterClaim ht' with ⟨rfl, rfl, rfl⟩ | ⟨-, hold⟩
    · refine ⟨h.writeSlot, fun hmem => ?_, ⟨t', a, s.stored⟩, ?_, rfl, rfl⟩
      · exact absurd (h.ticket_lt_of_mem hmem) (Nat.lt_irrefl s.claims.length)
      · simp [System.afterClaim]
    · obtain ⟨hi, hne, c, hc, hct, hce⟩ := h.storing t' i e hold
      have hlt := h.ticket_lt_of_storing hold
      exact ⟨hi, hne, c, by simp [System.afterClaim, List.getElem?_append_left hlt, hc], hct, hce⟩
  stored := by
    intro e he
    obtain ⟨c, hc, hce⟩ := h.stored e he
    have hlt := h.ticket_lt_of_mem he
    exact ⟨c, by simp [System.afterClaim, List.getElem?_append_left hlt, hc], hce⟩
  nodup := h.nodup
  accounted := by
    intro c hc
    simp only [System.afterClaim, List.length_append, List.length_singleton] at hc ⊢
    rcases Nat.lt_succ_iff_lt_or_eq.1 hc with hlt | rfl
    · rcases h.accounted c hlt with ⟨t', i, e, ht', he⟩ | hst
      · have hne : t' ≠ t := by rintro rfl; rw [ht] at ht'; cases ht'
        exact .inl ⟨t', i, e, (Function.update_of_ne hne _ _).trans ht', he⟩
      · exact .inr hst
    · exact .inl ⟨t, _, _, Function.update_self .., rfl⟩
  unread := h.unread

theorem afterStore (h : Tickets N s) {t : T} {i : ℕ} {e : Entry α}
    (ht : s.producers t = .storing i e) : Tickets N (s.afterStore t i e) where
  size := h.size
  writeIndex := h.writeIndex
  storing := by
    intro t' j f ht'
    obtain ⟨hne, hold⟩ := storing_afterStore ht'
    obtain ⟨hj, hnf, c, hc, hct, hcf⟩ := h.storing t' j f hold
    refine ⟨hj, fun hmem => ?_, c, hc, hct, hcf⟩
    rcases List.mem_append.1 hmem with hmem | hmem
    · exact hnf hmem
    · rw [List.mem_singleton.1 hmem] at hold
      exact hne (h.storing_inj hold ht rfl)
  stored := by
    intro f hf
    rcases List.mem_append.1 hf with hf | hf
    · exact h.stored f hf
    · rw [List.mem_singleton.1 hf]
      obtain ⟨-, -, c, hc, -, hce⟩ := h.storing t i e ht
      exact ⟨c, hc, hce⟩
  nodup := by
    obtain ⟨-, hne, -⟩ := h.storing t i e ht
    exact List.nodup_append.2 ⟨h.nodup, List.nodup_singleton e, by
      intro a ha b hb hab
      rw [List.mem_singleton.1 hb] at hab
      exact hne (hab ▸ ha)⟩
  accounted := by
    intro c hc
    rcases h.accounted c hc with ⟨t', j, f, ht', hf⟩ | ⟨f, hf, hfc⟩
    · by_cases hne : t' = t
      · subst hne
        rw [ht, Producer.storing.injEq] at ht'
        exact .inr ⟨e, List.mem_append_right _ (List.mem_singleton.2 rfl), ht'.2 ▸ hf⟩
      · exact .inl ⟨t', j, f, (Function.update_of_ne hne _ _).trans ht', hf⟩
    · exact .inr ⟨f, List.mem_append_left _ hf, hfc⟩
  unread := by
    intro j hj
    by_cases hji : j = i
    · subst hji
      obtain ⟨hi, -⟩ := h.storing t j e ht
      exact ⟨e, List.mem_append_right _ (List.mem_singleton.2 rfl),
        by simp [System.afterStore, ring_store_self], hi⟩
    · have hold : s.ring.Unread j := ((unread_store _ _ _ _).1 hj).resolve_left hji
      obtain ⟨f, hf, hl, hs⟩ := h.unread j hold
      exact ⟨f, List.mem_append_left _ hf,
        by rw [System.afterStore, ring_store_of_ne _ _ hji]; exact hl, hs⟩

theorem step (h : Tickets N s) {l : Label T α} {s' : System T α} (hs : s.step l = some s') :
    Tickets N s' := by
  rcases step_cases hs with ⟨t, a, -, ht, rfl⟩ | ⟨t, i, e, -, ht, rfl⟩ | ⟨-, rfl⟩
  · exact h.afterClaim ht a
  · exact h.afterStore ht
  · exact h.afterPop

/-- The bookkeeping holds in every reachable state, whatever the steps are allowed to do. -/
theorem of_reachable {guard : System T α → Label T α → Prop}
    (h : (machine T α N).Reachable guard s) : Tickets N s :=
  h.invariant (init N) fun _ _ _ hinv _ hs => hinv.step hs

end Tickets

end RingBuffer

end ZephyrLog
