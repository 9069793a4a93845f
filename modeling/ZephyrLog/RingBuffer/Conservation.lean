import Mathlib.Algebra.BigOperators.Group.Finset.Basic
import Mathlib.Algebra.Order.BigOperators.Group.Finset
import Mathlib.Algebra.Order.Group.Multiset
import Mathlib.Tactic.Abel
import ZephyrLog.RingBuffer.Calls

/-!
# Conservation of lines in the ring

Every line whose store has completed is returned by `tryPop`, overwritten while unread, or held in
a slot with `written == 1`; the three multisets are disjoint.  The invariant is `Conserved`, one
lemma a step: a store adds its line to the held ones and moves the contents it replaces, if unread,
to the overwritten ones, and a successful `tryPop` moves the contents of its slot to the popped
ones.
-/

namespace ZephyrLog

namespace RingBuffer

variable {α T : Type} {N : ℕ}

/-- The unread contents of one slot. -/
def contents (r : RingBuffer α) (i : ℕ) : Multiset (Cell α) :=
  if r.Unread i then {(r.ring i).logline} else 0

/-- The contents of all slots with `written == 1`. -/
def held (r : RingBuffer α) : Multiset (Cell α) := ∑ i ∈ Finset.range r.size, r.contents i

@[simp] theorem held_new (n : ℕ) : (new n : RingBuffer α).held = 0 :=
  Finset.sum_eq_zero fun i _ => if_neg (not_unread_new n i)

theorem contents_of_unread {r : RingBuffer α} {i : ℕ} (h : r.Unread i) :
    r.contents i = {(r.ring i).logline} := if_pos h

theorem contents_of_not_unread {r : RingBuffer α} {i : ℕ} (h : ¬ r.Unread i) :
    r.contents i = 0 := if_neg h

theorem contents_congr {r r' : RingBuffer α} {i : ℕ} (h : r'.ring i = r.ring i) :
    r'.contents i = r.contents i := by
  by_cases hu : r.Unread i
  · rw [contents_of_unread hu, contents_of_unread (by rwa [Unread, h]), h]
  · rw [contents_of_not_unread hu, contents_of_not_unread (by rwa [Unread, h])]

theorem card_held_le (r : RingBuffer α) : r.held.card ≤ r.size := by
  rw [held, Multiset.card_sum]
  calc ∑ i ∈ Finset.range r.size, (r.contents i).card
      ≤ ∑ _i ∈ Finset.range r.size, 1 := Finset.sum_le_sum fun i _ => by
        unfold contents; split_ifs <;> simp
    _ = r.size := by simp

/-- Two rings that differ in one slot hold the same lines apart from that slot's. -/
theorem held_add_contents {r r' : RingBuffer α} {i : ℕ} (hsize : r'.size = r.size) (hi : i < r.size)
    (hne : ∀ j ≠ i, r'.ring j = r.ring j) :
    r'.held + r.contents i = r.held + r'.contents i := by
  have hmem : i ∈ Finset.range r.size := Finset.mem_range.2 hi
  have hrest : ∑ j ∈ (Finset.range r.size).erase i, r'.contents j =
      ∑ j ∈ (Finset.range r.size).erase i, r.contents j :=
    Finset.sum_congr rfl fun j hj => contents_congr (hne j (Finset.ne_of_mem_erase hj))
  rw [held, held, hsize, ← Finset.add_sum_erase _ _ hmem, ← Finset.add_sum_erase _ r.contents hmem,
    hrest]
  abel

theorem held_store (r : RingBuffer α) {i : ℕ} (hi : i < r.size) (a : α) :
    (r.store i a).held + r.contents i = r.held + {.line a} := by
  have h : (r.store i a).held + r.contents i = r.held + (r.store i a).contents i :=
    held_add_contents rfl hi fun j hj => ring_store_of_ne r a hj
  rwa [contents_of_unread ((unread_store r i i a).2 (.inl rfl)), ring_store_self] at h

theorem held_advance (r : RingBuffer α) (hi : r.readSlot < r.size) (h : r.Unread r.readSlot) :
    r.advance.held + {(r.ring r.readSlot).logline} = r.held := by
  have hh : r.advance.held + r.contents r.readSlot = r.held + r.advance.contents r.readSlot :=
    held_add_contents rfl hi fun j hj => ring_advance_of_ne r hj
  rwa [contents_of_unread h, contents_of_not_unread fun hu => ((unread_advance r _).1 hu).1 rfl,
    add_zero] at hh

/-- Stored lines are popped, overwritten or held, and a line is overwritten by a later store into
its slot only. -/
structure Conserved (N : ℕ) (s : System T α) : Prop where
  total : ((s.stored.map Cell.line : List (Cell (Entry α))) : Multiset (Cell (Entry α))) =
    (s.popped : Multiset (Cell (Entry α))) +
      (s.overwritten.map Prod.fst : List (Cell (Entry α))) + s.ring.held
  replaced : ∀ p ∈ s.overwritten, ∃ e, p.1 = .line e ∧ [e, p.2].Sublist s.stored ∧
    slotOf N p.2.ticket = slotOf N e.ticket

namespace Conserved

variable {s : System T α}

theorem init (N : ℕ) : Conserved N (System.init N : System T α) where
  total := by simp [System.init]
  replaced := by intro p hp; cases hp

theorem afterPop (h : Conserved N s) (hN : 0 < N) (ht : Tickets N s) : Conserved N s.afterPop := by
  by_cases hu : s.ring.Unread s.ring.readSlot
  · have hi : s.ring.readSlot < s.ring.size := by
      rw [readSlot, ht.size]
      exact Nat.mod_lt _ hN
    have hheld := held_advance s.ring hi hu
    rw [afterPop_of_unread hu]
    refine ⟨?_, h.replaced⟩
    rw [h.total, ← hheld, ← Multiset.coe_add, Multiset.coe_singleton]
    abel
  · rwa [afterPop_of_not_unread hu]

variable [DecidableEq T]

theorem afterStore (h : Conserved N s) (hN : 0 < N) (hs : Tickets N s) {t : T} {i : ℕ}
    {e : Entry α} (ht : s.producers t = .storing i e) : Conserved N (s.afterStore t i e) := by
  obtain ⟨hie, -⟩ := hs.storing t i e ht
  have hi : i < s.ring.size := by
    rw [hie, hs.size]
    exact slotOf_lt hN _
  have hheld := held_store s.ring hi e
  have hline : ((s.stored ++ [e]).map Cell.line : Multiset (Cell (Entry α))) =
      (s.stored.map Cell.line : List (Cell (Entry α))) + {Cell.line e} := by
    rw [List.map_append, ← Multiset.coe_add]
    rfl
  have grow : ∀ p ∈ s.overwritten, ∃ f, p.1 = .line f ∧ [f, p.2].Sublist (s.stored ++ [e]) ∧
      slotOf N p.2.ticket = slotOf N f.ticket := by
    intro p hp
    obtain ⟨f, hf, hsub, hslot⟩ := h.replaced p hp
    exact ⟨f, hf, hsub.trans (List.sublist_append_left _ _), hslot⟩
  by_cases hu : s.ring.Unread i
  · rw [contents_of_unread hu] at hheld
    refine ⟨?_, ?_⟩
    · simp only [System.afterStore, if_pos hu]
      rw [hline, h.total, List.map_append, ← Multiset.coe_add, List.map_singleton,
        Multiset.coe_singleton, add_assoc, ← hheld]
      abel
    · intro p hp
      simp only [System.afterStore, if_pos hu] at hp
      rcases List.mem_append.1 hp with hp | hp
      · exact grow p hp
      · obtain ⟨f, hf, hl, hfi⟩ := hs.unread i hu
        rw [List.mem_singleton.1 hp]
        exact ⟨f, hl, (List.singleton_sublist.2 hf).append (List.Sublist.refl [e]),
          by rw [← hie, ← hfi]⟩
  · rw [contents_of_not_unread hu, add_zero] at hheld
    refine ⟨?_, ?_⟩
    · simp only [System.afterStore, if_neg hu]
      rw [hline, h.total, hheld, add_assoc]
    · intro p hp
      simp only [System.afterStore, if_neg hu] at hp
      exact grow p hp

theorem step (h : Conserved N s) (hN : 0 < N) (ht : Tickets N s) {l : Label T α} {s' : System T α}
    (hs : s.step l = some s') : Conserved N s' := by
  rcases step_cases hs with ⟨t, a, -, -, rfl⟩ | ⟨t, i, e, -, hst, rfl⟩ | ⟨-, rfl⟩
  · exact ⟨h.total, h.replaced⟩
  · exact h.afterStore hN ht hst
  · exact h.afterPop hN ht

theorem of_reachable (hN : 0 < N) {guard : System T α → Label T α → Prop}
    (h : (machine T α N).Reachable guard s) : Conserved N s := by
  have both : Tickets N s ∧ Conserved N s := by
    refine h.invariant (P := fun s => Tickets N s ∧ Conserved N s)
      ⟨.init N, .init N⟩ fun _ _ _ hinv _ hstep => ?_
    exact ⟨hinv.1.step hstep, hinv.2.step hN hinv.1 hstep⟩
  exact both.2

omit [DecidableEq T] in
/-- Everything `tryPop` has returned is a line whose store had completed. -/
theorem mem_stored_of_mem_popped (h : Conserved N s) {c : Cell (Entry α)} (hc : c ∈ s.popped) :
    ∃ e ∈ s.stored, c = .line e := by
  have hmem : c ∈ ((s.stored.map Cell.line : List (Cell (Entry α))) : Multiset _) := by
    rw [h.total]
    exact Multiset.mem_add.2 (.inl (Multiset.mem_add.2 (.inl hc)))
  obtain ⟨e, he, rfl⟩ := List.mem_map.1 (Multiset.mem_coe.1 hmem)
  exact ⟨e, he, rfl⟩

end Conserved

/-- In every reachable state the stored lines are the disjoint union of the popped, the overwritten
and the at most `N` held ones; everything popped was pushed, and a line is lost only to a later
store into its slot. -/
theorem stored_partition [DecidableEq T] (hN : 0 < N) {s : System T α}
    (h : (machine T α N).Reachable Machine.anyStep s) :
    ((s.stored.map Cell.line : List (Cell (Entry α))) : Multiset (Cell (Entry α))) =
        (s.popped : Multiset (Cell (Entry α))) +
          (s.overwritten.map Prod.fst : List (Cell (Entry α))) + s.ring.held ∧
      ((s.popped : Multiset (Cell (Entry α))) +
          (s.overwritten.map Prod.fst : List (Cell (Entry α))) + s.ring.held).Nodup ∧
      s.ring.held.card ≤ N ∧
      (∀ c ∈ s.popped, ∃ e ∈ s.stored, c = .line e ∧
        ∃ k, s.claims[e.ticket]? = some k ∧ k.line = e.line) ∧
      ∀ p ∈ s.overwritten, ∃ e, p.1 = .line e ∧ [e, p.2].Sublist s.stored ∧
        slotOf N p.2.ticket = slotOf N e.ticket := by
  have ht := Tickets.of_reachable h
  have hc := Conserved.of_reachable hN h
  refine ⟨hc.total, ?_, ht.size ▸ card_held_le s.ring, ?_, hc.replaced⟩
  · rw [← hc.total, Multiset.coe_nodup]
    exact ht.nodup.map fun e f hef => Cell.line.inj hef
  · intro c hmem
    obtain ⟨e, he, hce⟩ := hc.mem_stored_of_mem_popped hmem
    exact ⟨e, he, hce, ht.stored e he⟩

/-- A ring of one slot in which the second of two lines replaces the first. -/
theorem stored_partition_lap : ({.line ⟨0, 7⟩, .line ⟨1, 8⟩} : Multiset (Cell (Entry ℕ))) =
    {.line ⟨1, 8⟩} + {.line ⟨0, 7⟩} +
      (run 1 [.push () 7, .push () 8, .tryPop] : System Unit ℕ).ring.held :=
  (stored_partition (by decide) (run_reachable 1 [.push () 7, .push () 8, .tryPop])).1

end RingBuffer

end ZephyrLog
