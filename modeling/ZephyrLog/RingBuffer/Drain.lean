import Mathlib.Data.Finset.Card
import ZephyrLog.Lib.Visit
import ZephyrLog.RingBuffer.Calls

/-!
# When the consumer's loop empties the ring

The loop `while (tryPop) write` stops at the first slot of the consumer's visiting order that holds
no unread line.  It leaves nothing behind exactly when the unread slots are an initial segment of
that order.  A push keeps this shape when the consumer reaches its slot through unread slots
(`InReach`); nothing in the code makes it so once producers lap the consumer.
-/

namespace ZephyrLog

namespace RingBuffer

variable {α T : Type} {N : ℕ}

theorem unread_advance_eq (r : RingBuffer α) :
    {i | r.advance.Unread i} = {i | r.Unread i} \ {r.visit 0} := by
  ext i
  rw [visit_zero, Set.mem_sdiff, Set.mem_singleton_iff, Set.mem_ofPred_eq, Set.mem_ofPred_eq,
    unread_advance]
  exact and_comm

theorem unread_push_eq (r : RingBuffer α) (a : α) :
    {i | (r.push a).Unread i} = insert r.writeSlot {i | r.Unread i} := by
  ext i
  exact unread_push r i a

/-- Unread slots in an initial segment of the visiting order are all drained. -/
theorem drainsFully_of_filled {r : RingBuffer α} {k : ℕ} (h : Filled r.visit {i | r.Unread i} k) :
    r.DrainsFully := by
  have stop {r : RingBuffer α} {k : ℕ} (h : Filled r.visit {i | r.Unread i} k)
      (hu : ¬ r.Unread r.readSlot) (i : ℕ) : ¬ r.Unread i := by
    intro hi
    obtain ⟨j, hj, -⟩ := (h.mem i).1 hi
    rw [h.eq_zero (by rwa [visit_zero])] at hj
    exact absurd hj (Nat.not_lt_zero j)
  intro n
  induction n generalizing r k with
  | zero => exact fun hnone => stop h ((tryPop_eq_none_iff r).1 hnone)
  | succ n ih =>
    by_cases hu : r.Unread r.readSlot
    · obtain ⟨k, rfl⟩ : ∃ k', k = k' + 1 := by
        obtain ⟨j, hj, -⟩ := (h.mem r.readSlot).1 hu
        exact ⟨k - 1, by omega⟩
      rw [popN_succ_of_unread hu]
      apply ih (k := k)
      rw [visit_advance, unread_advance_eq]
      exact h.tail
    · rw [popN_of_not_unread hu]
      exact fun _ => stop h hu

/-- Conversely, a ring that the loop empties has its unread slots in an initial segment. -/
theorem filled_of_drainsFully {r : RingBuffer α} (hr : ∀ i, r.Unread i → i < r.size)
    (h : r.DrainsFully) : ∃ k, Filled r.visit {i | r.Unread i} k := by
  generalize hn : ((Finset.range r.size).filter r.Unread).card = n
  induction n using Nat.strong_induction_on generalizing r with
  | _ n ih =>
    by_cases hu : r.Unread r.readSlot
    · have hlt : ((Finset.range r.advance.size).filter r.advance.Unread).card < n := by
        rw [← hn]
        refine Finset.card_lt_card (Finset.ssubset_iff_subset_ne.2 ⟨fun i hi => ?_, fun heq => ?_⟩)
        · rw [Finset.mem_filter] at hi ⊢
          exact ⟨hi.1, ((unread_advance r i).1 hi.2).2⟩
        · have hmem : r.readSlot ∈ (Finset.range r.advance.size).filter r.advance.Unread := by
            rw [heq, Finset.mem_filter]
            exact ⟨Finset.mem_range.2 (hr _ hu), hu⟩
          exact ((unread_advance r _).1 (Finset.mem_filter.1 hmem).2).1 rfl
      obtain ⟨k, hk⟩ := ih _ hlt (r := r.advance) (fun i hi => hr i ((unread_advance r i).1 hi).2)
        (h.advance hu) rfl
      rw [visit_advance, unread_advance_eq] at hk
      exact ⟨k + 1, hk.cons (by rwa [visit_zero])⟩
    · refine ⟨0, ?_⟩
      have hempty : {i | r.Unread i} = ∅ :=
        Set.eq_empty_iff_forall_notMem.2 (h 0 ((tryPop_eq_none_iff r).2 hu))
      rw [hempty]
      exact filled_zero _

/-- Slots that hold an unread line or that a push in flight will store into. -/
def System.reserved (s : System T α) : Set ℕ :=
  {i | s.ring.Unread i ∨ ∃ t e, s.producers t = .storing i e}

/-- A push claims, and a `tryPop` returns to a push in flight, only slots that the consumer reaches
through reserved slots. -/
def InReach (s : System T α) : Label T α → Prop
  | .claim _ _ => ReachedThrough s.ring.visit s.reserved s.ring.writeSlot
  | .store _ => True
  | .tryPop => s.ring.Unread s.ring.readSlot →
      (∃ t e, s.producers t = .storing s.ring.readSlot e) →
      ReachedThrough s.ring.advance.visit s.reserved s.ring.readSlot

theorem reserved_eq_unread {s : System T α} (h : s.NoPushInFlight) :
    s.reserved = {i | s.ring.Unread i} := by
  ext i
  simp [System.reserved, h _]

theorem reserved_advance_of_storing {s : System T α}
    (hp : ∃ t e, s.producers t = .storing s.ring.readSlot e) :
    {s with ring := s.ring.advance}.reserved = s.reserved := by
  ext i
  constructor
  · rintro (hi | hi)
    · exact .inl ((unread_advance _ _).1 hi).2
    · exact .inr hi
  · rintro (hi | hi)
    · by_cases heq : i = s.ring.readSlot
      · exact .inr (heq ▸ hp)
      · exact .inl ((unread_advance _ _).2 ⟨heq, hi⟩)
    · exact .inr hi

theorem reserved_advance_of_not_storing {s : System T α}
    (hp : ¬ ∃ t e, s.producers t = .storing s.ring.readSlot e) :
    {s with ring := s.ring.advance}.reserved = s.reserved \ {s.ring.visit 0} := by
  ext i
  rw [visit_zero]
  constructor
  · rintro (hi | hi)
    · obtain ⟨hne, hold⟩ := (unread_advance _ _).1 hi
      exact ⟨.inl hold, hne⟩
    · exact ⟨.inr hi, fun heq => hp (heq ▸ hi)⟩
  · rintro ⟨hi | hi, hne⟩
    · exact .inl ((unread_advance _ _).2 ⟨hne, hi⟩)
    · exact .inr hi

theorem filled_init (N : ℕ) :
    Filled (new N : RingBuffer (Entry α)).visit
      {i | (new N : RingBuffer (Entry α)).Unread i} 0 := by
  have hempty : {i | (new N : RingBuffer (Entry α)).Unread i} = ∅ :=
    Set.eq_empty_iff_forall_notMem.2 fun i hi => not_unread_new N i hi
  rw [hempty]
  exact filled_zero _

theorem filled_afterPop {s : System T α} {k : ℕ} (h : Filled s.ring.visit s.reserved k)
    (hreach : InReach s .tryPop) : ∃ k, Filled s.afterPop.ring.visit s.afterPop.reserved k := by
  by_cases hu : s.ring.Unread s.ring.readSlot
  · have h0 : s.ring.visit 0 ∈ s.reserved := by
      rw [visit_zero]
      exact .inl hu
    obtain ⟨k, rfl⟩ : ∃ k', k = k' + 1 := by
      obtain ⟨j, hj, -⟩ := (h.mem _).1 h0
      exact ⟨k - 1, by omega⟩
    have htail : Filled s.ring.advance.visit (s.reserved \ {s.ring.visit 0}) k := by
      rw [visit_advance]
      exact h.tail
    rw [afterPop_of_unread hu]
    show ∃ k, Filled s.ring.advance.visit {s with ring := s.ring.advance}.reserved k
    by_cases hp : ∃ t e, s.producers t = .storing s.ring.readSlot e
    · have hinsert : insert (s.ring.visit 0) (s.reserved \ {s.ring.visit 0}) = s.reserved := by
        rw [Set.insert_sdiff_singleton, Set.insert_eq_of_mem h0]
      rw [reserved_advance_of_storing hp, ← hinsert]
      apply htail.insert
      rw [hinsert, visit_zero]
      exact hreach hu hp
    · rw [reserved_advance_of_not_storing hp]
      exact ⟨k, htail⟩
  · rw [afterPop_of_not_unread hu]
    exact ⟨k, h⟩

variable [DecidableEq T]

theorem reserved_afterClaim {s : System T α} {t : T} (ht : s.producers t = .idle) (a : α) :
    (s.afterClaim t a).reserved = insert s.ring.writeSlot s.reserved := by
  ext i
  constructor
  · rintro (hi | ⟨t', e, he⟩)
    · exact .inr (.inl hi)
    · rcases storing_afterClaim he with ⟨-, rfl, -⟩ | ⟨-, hold⟩
      · exact .inl rfl
      · exact .inr (.inr ⟨t', e, hold⟩)
  · rintro (rfl | hi | ⟨t', e, he⟩)
    · exact .inr ⟨t, _, Function.update_self ..⟩
    · exact .inl hi
    · have hne : t' ≠ t := by rintro rfl; rw [ht] at he; cases he
      exact .inr ⟨t', e, (Function.update_of_ne hne _ _).trans he⟩

theorem reserved_afterStore {s : System T α} {t : T} {i : ℕ} {e : Entry α}
    (ht : s.producers t = .storing i e) : (s.afterStore t i e).reserved = s.reserved := by
  ext j
  constructor
  · rintro (hj | ⟨t', f, hf⟩)
    · rcases (unread_store _ _ _ _).1 hj with rfl | hj
      · exact .inr ⟨t, e, ht⟩
      · exact .inl hj
    · exact .inr ⟨t', f, (storing_afterStore hf).2⟩
  · rintro (hj | ⟨t', f, hf⟩)
    · exact .inl ((unread_store _ _ _ _).2 (.inr hj))
    · by_cases hne : t' = t
      · subst hne
        rw [ht, Producer.storing.injEq] at hf
        exact .inl ((unread_store _ _ _ _).2 (.inl hf.1.symm))
      · exact .inr ⟨t', f, (Function.update_of_ne hne _ _).trans hf⟩

/-- The reserved slots stay an initial segment of the visiting order as long as every step is in
reach. -/
theorem filled_step {s s' : System T α} (h : ∃ k, Filled s.ring.visit s.reserved k)
    {l : Label T α} (hreach : InReach s l) (hs : s.step l = some s') :
    ∃ k, Filled s'.ring.visit s'.reserved k := by
  obtain ⟨k, h⟩ := h
  rcases step_cases hs with ⟨t, a, rfl, ht, rfl⟩ | ⟨t, i, e, rfl, ht, rfl⟩ | ⟨rfl, rfl⟩
  · rw [reserved_afterClaim ht]
    exact h.insert (hreach.mono (Set.subset_insert _ _))
  · rw [reserved_afterStore ht]
    exact ⟨k, h⟩
  · exact filled_afterPop h hreach

theorem filled_of_reachable {s : System T α} (h : (machine T α N).Reachable InReach s) :
    ∃ k, Filled s.ring.visit s.reserved k := by
  refine h.invariant (P := fun s => ∃ k, Filled s.ring.visit s.reserved k) ⟨0, ?_⟩
    fun _ _ _ hinv hreach hstep => filled_step hinv hreach hstep
  rw [reserved_eq_unread fun _ => rfl]
  exact filled_init N

theorem drainsFully_iff (hN : 0 < N) (calls : List (Call T α)) :
    (run N calls).ring.DrainsFully ↔
      ∃ k, Filled (run N calls).ring.visit {i | (run N calls).ring.Unread i} k := by
  constructor
  · have ht := Tickets.of_reachable (run_reachable N calls)
    refine filled_of_drainsFully fun i hi => ?_
    obtain ⟨e, -, -, rfl⟩ := ht.unread i hi
    rw [ht.size]
    exact slotOf_lt hN _
  · exact fun ⟨_, hk⟩ => drainsFully_of_filled hk

/-- A `push` call keeps the ring drainable exactly when the consumer reaches its slot. -/
theorem drainsFully_push_iff (hN : 0 < N) (calls : List (Call T α)) (t : T) (a : α)
    (h : (run N calls).ring.DrainsFully) :
    (run N (calls ++ [.push t a])).ring.DrainsFully ↔
      ReachedThrough (run N calls).ring.visit {i | (run N calls).ring.Unread i}
        (run N calls).ring.writeSlot := by
  obtain ⟨k, hk⟩ := (drainsFully_iff hN calls).1 h
  have hring : (run N (calls ++ [.push t a])).ring =
      (run N calls).ring.push ⟨(run N calls).claims.length, a⟩ := by
    rw [run_append]
    rfl
  rw [drainsFully_iff hN, hring, visit_push, unread_push_eq]
  constructor
  · rintro ⟨k', hk'⟩
    exact hk.reachedThrough_of_insert hk'
  · exact fun hreach => hk.insert (hreach.mono (Set.subset_insert _ _))

theorem drainsFully_prefix_iff (hN : 0 < N) (calls : List (Call T α)) :
    (∀ p, p <+: calls → (run N p).ring.DrainsFully) ↔
      ∀ p t a, p ++ [.push t a] <+: calls →
        ReachedThrough (run N p).ring.visit {i | (run N p).ring.Unread i}
          (run N p).ring.writeSlot := by
  constructor
  · intro h p t a hp
    exact (drainsFully_push_iff hN p t a (h p ((List.prefix_append p _).trans hp))).1 (h _ hp)
  · intro h p hp
    induction p using List.reverseRecOn with
    | nil => exact (drainsFully_iff hN []).2 ⟨0, filled_init N⟩
    | append_singleton p c ih =>
      have hdrain := ih ((List.prefix_append p _).trans hp)
      cases c with
      | push t a => exact (drainsFully_push_iff hN p t a hdrain).2 (h p t a hp)
      | tryPop =>
        rw [run_append]
        exact fun n => hdrain (n + 1)

/-- The consumer's loop empties the ring in every state with no push in flight of every run whose
steps are in reach; and of a run of whole calls it empties the ring after every prefix if and only
if every push stores into a slot that the consumer reaches through unread slots. -/
theorem drainsFully_iff_inReach (hN : 0 < N) :
    (∀ s : System T α, (machine T α N).Reachable InReach s → s.NoPushInFlight →
      s.ring.DrainsFully) ∧
    ∀ calls : List (Call T α), (∀ p, p <+: calls → (run N p).ring.DrainsFully) ↔
      ∀ p t a, p ++ [.push t a] <+: calls →
        ReachedThrough (run N p).ring.visit {i | (run N p).ring.Unread i}
          (run N p).ring.writeSlot := by
  refine ⟨fun s hs hquiet => ?_, drainsFully_prefix_iff hN⟩
  obtain ⟨k, hk⟩ := filled_of_reachable hs
  rw [reserved_eq_unread hquiet] at hk
  exact drainsFully_of_filled hk

/-- Two slots, and a third line when the first has been popped. -/
theorem drainsFully_two : (run 2 [.push () 7, .push () 8, .tryPop, .push () 9] :
    System Unit ℕ).ring.DrainsFully := by
  let calls : List (Call Unit ℕ) := [.push () 7, .push () 8, .tryPop, .push () 9]
  refine ((drainsFully_iff_inReach (by decide)).2 calls).2 (fun p t a hp => ?_) _
    (List.prefix_refl _)
  obtain ⟨rest, hrest⟩ := hp
  have htake : p = calls.take p.length := by
    rw [← hrest, List.append_assoc, List.take_left]
  have hcall : calls[p.length]? = some (.push t a) := by
    rw [← hrest]
    simp
  have hlt : p.length < 4 := (List.getElem?_eq_some_iff.1 hcall).1
  have reached {r : RingBuffer (Entry ℕ)} (j : ℕ) (hj : r.visit j = r.writeSlot)
      (hthrough : ∀ i < j, r.Unread (r.visit i))
      (hinj : ∀ i ≤ j, ∀ i' ≤ j, r.visit i = r.visit i' → i = i') :
      ReachedThrough r.visit {i | r.Unread i} r.writeSlot :=
    ⟨j, hj, hthrough, fun i hi i' hi' => hinj i hi i' hi'⟩
  rw [htake]
  generalize p.length = n at *
  match n, hcall with
  | 0, _ => exact reached 0 (by decide) (by decide) (by decide)
  | 1, _ => exact reached 1 (by decide) (by decide) (by decide)
  | 3, _ => exact reached 1 (by decide) (by decide) (by decide)

/-- Two slots, three pushes, two pops, one push: `tryPop` fails while the other slot is unread. -/
theorem exists_stranded : ¬ ∀ N, 0 < N → ∀ s : System Unit ℕ,
    (machine Unit ℕ N).Reachable Machine.anyStep s → s.NoPushInFlight →
      s.ring.tryPop.1 = none → ∀ i, ¬ s.ring.Unread i := by
  intro hall
  let calls : List (Call Unit ℕ) :=
    [.push () 0, .push () 1, .push () 2, .tryPop, .tryPop, .push () 3]
  exact hall 2 (by decide) (run 2 calls) (run_reachable 2 calls) (run_noPushInFlight 2 calls)
    (by decide) 1 (by decide)

end RingBuffer

end ZephyrLog
