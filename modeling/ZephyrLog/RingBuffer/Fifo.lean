import ZephyrLog.Lib.Counter
import ZephyrLog.RingBuffer.Calls

/-!
# The ring as a lossless queue

As long as the claims made exceed the successful pops by at most `N`, and `N` divides `2 ^ 32`, the
ring is a FIFO queue: the unread slots and the stores still to come occupy the slots of the tickets
from the number of pops up to the number of claims, one slot each.  `InOrder` is the invariant; the
wrap of both counters is absorbed by `slotOf_eq_mod`.
-/

namespace ZephyrLog

namespace RingBuffer

variable {α T : Type} {N : ℕ}

/-- A claim is made only while the claims exceed the successful pops by less than `N`. -/
def NotOverrun (N : ℕ) (s : System T α) (l : Label T α) : Prop :=
  ∀ t a, l = .claim t a → s.claims.length < s.popped.length + N

instance (N : ℕ) (s : System T α) : ∀ l, Decidable (NotOverrun N s l)
  | .claim _ _ => decidable_of_iff (s.claims.length < s.popped.length + N)
    ⟨fun h _ _ _ => h, fun h => h _ _ rfl⟩
  | .store _ | .tryPop => .isTrue fun _ _ h => by cases h

theorem slotOf_eq_mod (hN : N ∣ 2 ^ 32) (c : ℕ) : slotOf N c = c % N := counter_mod_of_dvd hN c

theorem slotOf_inj (hN : N ∣ 2 ^ 32) {r a b : ℕ} (ha : r ≤ a) (ha' : a < r + N) (hb : r ≤ b)
    (hb' : b < r + N) (h : slotOf N a = slotOf N b) : a = b := by
  rw [slotOf_eq_mod hN, slotOf_eq_mod hN] at h
  exact eq_of_mod_eq_of_window ha ha' hb hb' h

/-- The ring holds exactly the stored tickets that have not been popped, in their own slots. -/
structure InOrder (N : ℕ) (s : System T α) : Prop where
  readIndex : s.ring.readIndex = BitVec.ofNat 32 s.popped.length
  window : s.claims.length ≤ s.popped.length + N
  storing : ∀ t i e, s.producers t = .storing i e →
    s.popped.length ≤ e.ticket ∧ ¬ s.ring.Unread i
  unread : ∀ i e, s.ring.Unread i → (s.ring.ring i).logline = .line e →
    s.popped.length ≤ e.ticket
  stored : ∀ e ∈ s.stored, s.popped.length ≤ e.ticket → s.ring.Unread (slotOf N e.ticket)
  popped : s.popped = (s.entries.take s.popped.length).map Cell.line
  intact : s.overwritten = []

namespace InOrder

variable {s : System T α}

theorem init (N : ℕ) : InOrder N (System.init N : System T α) where
  readIndex := rfl
  window := Nat.zero_le _
  storing := by intro t i e h; cases h
  unread := by intro i e h; exact absurd h (not_unread_new N i)
  stored := by intro e h; cases h
  popped := rfl
  intact := rfl

theorem popped_length_le (h : InOrder N s) : s.popped.length ≤ s.claims.length := by
  have := congrArg List.length h.popped
  simp only [System.entries, List.length_map, List.length_take, List.length_mapIdx] at this
  omega

theorem readSlot (h : InOrder N s) (ht : Tickets N s) :
    s.ring.readSlot = slotOf N s.popped.length := by
  rw [RingBuffer.readSlot, h.readIndex, ht.size, slotOf]

/-- The line in the slot at the read cursor is the next one in claim order. -/
theorem head (h : InOrder N s) (hN : N ∣ 2 ^ 32) (ht : Tickets N s)
    (hu : s.ring.Unread s.ring.readSlot) : ∃ e ∈ s.stored, e.ticket = s.popped.length ∧
      (s.ring.ring s.ring.readSlot).logline = .line e ∧
      s.entries[s.popped.length]? = some e := by
  obtain ⟨e, he, hl, hslot⟩ := ht.unread _ hu
  have hge := h.unread _ e hu hl
  have hlt := ht.ticket_lt_of_mem he
  have hw := h.window
  have heq : e.ticket = s.popped.length :=
    slotOf_inj hN hge (by omega) le_rfl (by omega) (by rw [← hslot, h.readSlot ht])
  obtain ⟨c, hc, hce⟩ := ht.stored e he
  refine ⟨e, he, heq, hl, ?_⟩
  rw [System.entries, List.getElem?_mapIdx, ← heq, hc, Option.map_some, hce]

theorem afterPop (h : InOrder N s) (hN : N ∣ 2 ^ 32) (ht : Tickets N s) : InOrder N s.afterPop := by
  by_cases hu : s.ring.Unread s.ring.readSlot
  swap
  · rwa [afterPop_of_not_unread hu]
  obtain ⟨e, he, heq, hl, hentry⟩ := h.head hN ht hu
  have hlt := ht.ticket_lt_of_mem he
  have hw := h.window
  have hlen : (s.popped ++ [(s.ring.ring s.ring.readSlot).logline]).length =
      s.popped.length + 1 := by simp
  rw [afterPop_of_unread hu]
  constructor
  case readIndex =>
    simp only [advance, hlen, h.readIndex, BitVec.ofNat_add]
    rfl
  case window => rw [hlen]; exact hw.trans (by omega)
  case storing =>
    intro t i f hf
    obtain ⟨hge, hnu⟩ := h.storing t i f hf
    have hne := ht.ticket_ne_of_storing hf he
    exact ⟨by rw [hlen]; omega, fun hu' => hnu ((unread_advance _ _).1 hu').2⟩
  case unread =>
    intro i f hu' hf
    obtain ⟨hne, hold⟩ := (unread_advance _ _).1 hu'
    rw [ring_advance_of_ne _ hne] at hf
    obtain ⟨g, -, hlg, hslot⟩ := ht.unread i hold
    obtain rfl : g = f := Cell.line.inj (hlg.symm.trans hf)
    have hge := h.unread i g hold hf
    -- the slot of the popped ticket is the read slot, so `g` has another ticket
    have hne' : g.ticket ≠ s.popped.length := by
      intro hg
      exact hne (by rw [hslot, hg, h.readSlot ht])
    rw [hlen]
    omega
  case stored =>
    intro f hf hge
    rw [hlen] at hge
    refine (unread_advance _ _).2 ⟨fun hslot => ?_, h.stored f hf (by omega)⟩
    have hfl := ht.ticket_lt_of_mem hf
    have := slotOf_inj hN (r := s.popped.length) (by omega) (by omega) le_rfl (by omega)
      (hslot.trans (h.readSlot ht))
    omega
  case popped =>
    show s.popped ++ [_] = (s.entries.take _).map Cell.line
    rw [hlen, List.take_add_one, List.map_append, ← h.popped, hl, hentry]
    rfl
  case intact => exact h.intact

variable [DecidableEq T]

theorem entries_afterClaim (s : System T α) (t : T) (a : α) :
    (s.afterClaim t a).entries = s.entries ++ [⟨s.claims.length, a⟩] := by
  simp [System.entries, System.afterClaim, List.mapIdx_append]

theorem afterClaim (h : InOrder N s) (hN : N ∣ 2 ^ 32) (ht : Tickets N s)
    (hroom : s.claims.length < s.popped.length + N) (t : T) (a : α) :
    InOrder N (s.afterClaim t a) where
  readIndex := h.readIndex
  window := by
    simp only [System.afterClaim, List.length_append, List.length_singleton]
    omega
  storing := by
    intro t' i e he
    rcases storing_afterClaim he with ⟨-, rfl, rfl⟩ | ⟨-, hold⟩
    · refine ⟨h.popped_length_le, fun hu => ?_⟩
      -- an unread line in this slot would have the same ticket
      obtain ⟨f, hf, hl, hslot⟩ := ht.unread _ hu
      have hge := h.unread _ f hu hl
      have hlt := ht.ticket_lt_of_mem hf
      have hle := h.popped_length_le
      have := slotOf_inj hN hge (by omega) hle hroom (by rw [← hslot, ht.writeSlot])
      omega
    · exact h.storing t' i e hold
  unread := h.unread
  stored := h.stored
  popped := by
    show s.popped = _
    rw [entries_afterClaim, List.take_append_of_le_length]
    · exact h.popped
    · rw [System.entries, List.length_mapIdx]
      exact h.popped_length_le
  intact := h.intact

theorem afterStore (h : InOrder N s) (hN : N ∣ 2 ^ 32) (ht : Tickets N s) {t : T} {i : ℕ}
    {e : Entry α} (hst : s.producers t = .storing i e) : InOrder N (s.afterStore t i e) where
  readIndex := h.readIndex
  window := h.window
  storing := by
    intro t' j f hf
    obtain ⟨hne, hold⟩ := storing_afterStore hf
    obtain ⟨hge, hnu⟩ := h.storing t' j f hold
    refine ⟨hge, fun hu => ?_⟩
    rcases (unread_store _ _ _ _).1 hu with rfl | hu
    · have hw := h.window
      have he := ht.ticket_lt_of_storing hst
      have hf' := ht.ticket_lt_of_storing hold
      obtain ⟨hie, -⟩ := ht.storing t j e hst
      obtain ⟨hif, -⟩ := ht.storing t' j f hold
      have hef := slotOf_inj hN (h.storing t j e hst).1 (by omega) hge (by omega)
        (hie.symm.trans hif)
      exact hne (ht.storing_inj hold hst hef.symm)
    · exact hnu hu
  unread := by
    intro j f hu hf
    by_cases hji : j = i
    · subst hji
      rw [System.afterStore, ring_store_self] at hf
      rw [← Cell.line.inj hf]
      exact (h.storing t j e hst).1
    · rw [System.afterStore, ring_store_of_ne _ _ hji] at hf
      exact h.unread j f (((unread_store _ _ _ _).1 hu).resolve_left hji) hf
  stored := by
    intro f hf hge
    rcases List.mem_append.1 hf with hf | hf
    · exact (unread_store _ _ _ _).2 (.inr (h.stored f hf hge))
    · rw [List.mem_singleton.1 hf]
      exact (unread_store _ _ _ _).2 (.inl (ht.storing t i e hst).1.symm)
  popped := h.popped
  intact := (if_neg (h.storing t i e hst).2).trans h.intact

theorem step (h : InOrder N s) (hN : N ∣ 2 ^ 32) (ht : Tickets N s) {l : Label T α}
    (hroom : NotOverrun N s l) {s' : System T α} (hs : s.step l = some s') : InOrder N s' := by
  rcases step_cases hs with ⟨t, a, hl, -, rfl⟩ | ⟨t, i, e, -, hst, rfl⟩ | ⟨-, rfl⟩
  · exact h.afterClaim hN ht (hroom t a hl) t a
  · exact h.afterStore hN ht hst
  · exact h.afterPop hN ht

theorem of_reachable (hN : N ∣ 2 ^ 32) (h : (machine T α N).Reachable (NotOverrun N) s) :
    InOrder N s := by
  have both : Tickets N s ∧ InOrder N s := by
    refine h.invariant (P := fun s => Tickets N s ∧ InOrder N s)
      ⟨.init N, .init N⟩ fun _ _ _ hinv hroom hstep => ?_
    exact ⟨hinv.1.step hstep, hinv.2.step hN hinv.1 hroom hstep⟩
  exact both.2

end InOrder

/-- The claim that brought a line. -/
def System.claimOf (s : System T α) : Cell (Entry α) → Option (Claim T α)
  | .line e => s.claims[e.ticket]?
  | _ => none

/-- The claims of the first `n` entries are the first `n` claims. -/
theorem claims_of_entries (s : System T α) (n : ℕ) :
    ((s.entries.take n).map Cell.line).filterMap s.claimOf = s.claims.take n := by
  have hclaims : s.entries.map (s.claimOf ∘ Cell.line) = s.claims.map some := by
    refine List.ext_getElem (by simp [System.entries]) fun i hi hi' => ?_
    simp only [List.length_map] at hi'
    simp [System.entries, System.claimOf, hi']
  calc ((s.entries.take n).map Cell.line).filterMap s.claimOf
    _ = ((s.entries.map (s.claimOf ∘ Cell.line)).take n).filterMap id := by
      rw [← List.map_take, List.filterMap_map, List.filterMap_map]
      rfl
    _ = s.claims.take n := by
      rw [hclaims, ← List.map_take, List.filterMap_map]
      exact List.filterMap_some

/-- Not overrun, a ring of `2 ^ k` slots with `k ≤ 31` is a lossless FIFO queue: no store overwrites
an unread line, the pops return the claimed lines in claim order, `tryPop` fails only if the line of
the next claim has not been stored, and each producer's lines come out in its own order. -/
theorem fifo_of_notOverrun [DecidableEq T] {k : ℕ} (hk : k ≤ 31) {s : System T α}
    (h : (machine T α (2 ^ k)).Reachable (NotOverrun (2 ^ k)) s) :
    (∀ t i e, s.producers t = .storing i e → ¬ s.ring.Unread i) ∧
      s.overwritten = [] ∧
      s.popped = (s.entries.take s.popped.length).map Cell.line ∧
      (s.ring.tryPop.1 = none → ∀ e ∈ s.stored, e.ticket ≠ s.popped.length) ∧
      ∀ t, (s.popped.filterMap s.claimOf).filter (fun c => c.thread = t) <+:
        s.claims.filter (fun c => c.thread = t) := by
  have hN : 2 ^ k ∣ 2 ^ 32 := pow_dvd_pow 2 (by omega)
  have ht := Tickets.of_reachable h
  have ho := InOrder.of_reachable hN h
  refine ⟨fun t i e hst => (ho.storing t i e hst).2, ho.intact, ho.popped, ?_, fun t => ?_⟩
  · intro hnone e he heq
    have hu := ho.stored e he heq.ge
    rw [heq, ← ho.readSlot ht] at hu
    exact (tryPop_eq_none_iff _).1 hnone hu
  · rw [ho.popped, claims_of_entries]
    exact (List.take_prefix _ _).filter _

/-- Two threads push on a ring of the size every caller passes; the line claimed first is stored
last and popped first. -/
theorem fifo_of_notOverrun_two : ∃ s : System Bool ℕ,
    s.stored = [⟨1, 8⟩, ⟨0, 7⟩] ∧ s.popped = [.line ⟨0, 7⟩, .line ⟨1, 8⟩] ∧ s.overwritten = [] := by
  obtain ⟨s, hs, hfin⟩ := Option.map_eq_some_iff.1 (show
    (((machine Bool ℕ (2 ^ 12)).restrict (NotOverrun (2 ^ 12))).exec (.init (2 ^ 12))
      [.claim false 7, .claim true 8, .store true, .tryPop, .store false, .tryPop, .tryPop]).map
        (fun s => (s.popped.length, s.stored, s.entries)) =
      some (2, [⟨1, 8⟩, ⟨0, 7⟩], [⟨0, 7⟩, ⟨1, 8⟩]) from rfl)
  simp only [Prod.mk.injEq] at hfin
  obtain ⟨hlen, hstored, hentries⟩ := hfin
  obtain ⟨-, hintact, hpopped, -⟩ := fifo_of_notOverrun (k := 12) (by decide) (.of_restrict hs)
  rw [hlen, hentries] at hpopped
  exact ⟨s, hstored, hpopped, hintact⟩

end RingBuffer

end ZephyrLog
