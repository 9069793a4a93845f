import Mathlib.Data.List.Sort
import Mathlib.Data.Set.Function
import Mathlib.Order.Interval.Set.Basic
import ZephyrLog.RingBuffer.Calls
import ZephyrLog.RingBuffer.Conservation

/-!
# The order in which the ring returns lines

The consumer goes on from its cursor even when producers have lapped it, so it meets new lines in
front of older ones.  `PushesInFront` is the push that makes this happen: it stores into a slot
that the consumer reaches through unread slots and that is followed by another unread slot.  Without
such a push the lines returned are a subsequence of the lines pushed; after one, the next calls of
`tryPop` return a line before an older one.
-/

namespace ZephyrLog

namespace RingBuffer

variable {α T : Type} {N : ℕ}

/-- The next `j + 1` calls of `tryPop` return the contents of slots `visit 0, …, visit j`. -/
def Drained (r : RingBuffer α) (j : ℕ) : Prop :=
  (∀ i ≤ j, r.Unread (r.visit i)) ∧ Set.InjOn r.visit (Set.Iic j)

/-- A push would store into a slot that the consumer reaches through unread slots, with an unread
slot right behind it. -/
def PushesInFront (r : RingBuffer α) : Prop :=
  ∃ j, r.visit j = r.writeSlot ∧ (∀ i < j, r.Unread (r.visit i)) ∧ r.Unread (r.visit (j + 1)) ∧
    Set.InjOn r.visit (Set.Iic (j + 1))

theorem drained_zero {r : RingBuffer α} (h : r.Unread r.readSlot) : r.Drained 0 := by
  refine ⟨fun i hi => ?_, fun a ha b hb _ => ?_⟩
  · rwa [Nat.le_zero.1 hi, visit_zero]
  · rw [Nat.le_zero.1 ha, Nat.le_zero.1 hb]

theorem Drained.unread_readSlot {r : RingBuffer α} {j : ℕ} (h : r.Drained j) :
    r.Unread r.readSlot := by
  have := h.1 0 (Nat.zero_le j)
  rwa [visit_zero] at this

theorem Drained.visit_ne {r : RingBuffer α} {i j : ℕ} (h : r.Drained j) (hi : i + 1 ≤ j) :
    r.visit (i + 1) ≠ r.readSlot := by
  intro heq
  rw [← visit_zero] at heq
  exact absurd (h.2 hi (Nat.zero_le j) heq) (Nat.succ_ne_zero i)

theorem Drained.advance {r : RingBuffer α} {j : ℕ} (h : r.Drained (j + 1)) :
    r.advance.Drained j := by
  rw [Drained, visit_advance]
  constructor
  · intro i hi
    exact (unread_advance r _).2 ⟨h.visit_ne (Nat.succ_le_succ hi), h.1 _ (Nat.succ_le_succ hi)⟩
  · intro a ha b hb hab
    exact Nat.succ_injective (h.2 (Nat.succ_le_succ ha) (Nat.succ_le_succ hb) hab)

theorem Drained.of_advance {r : RingBuffer α} {j : ℕ} (hu : r.Unread r.readSlot)
    (h : r.advance.Drained j) : r.Drained (j + 1) := by
  rw [Drained, visit_advance] at h
  have step : ∀ i ≤ j, r.visit (i + 1) ≠ r.readSlot ∧ r.Unread (r.visit (i + 1)) :=
    fun i hi => (unread_advance r _).1 (h.1 i hi)
  constructor
  · intro i hi
    cases i with
    | zero => rwa [visit_zero]
    | succ i => exact (step i (Nat.succ_le_succ_iff.1 hi)).2
  · intro a ha b hb hab
    cases a with
    | zero =>
      cases b with
      | zero => rfl
      | succ b =>
        rw [visit_zero] at hab
        exact absurd hab.symm (step b (Nat.succ_le_succ_iff.1 hb)).1
    | succ a =>
      cases b with
      | zero =>
        rw [visit_zero] at hab
        exact absurd hab (step a (Nat.succ_le_succ_iff.1 ha)).1
      | succ b =>
        rw [h.2 (Nat.succ_le_succ_iff.1 ha) (Nat.succ_le_succ_iff.1 hb) hab]

/-! ## Lines in sequence -/

/-- The lines returned so far are in push order, and so are those that the next calls of `tryPop`
would return, after them. -/
structure InSequence (s : System T α) (es : List (Entry α)) : Prop where
  popped : s.popped = es.map Cell.line
  stored : ∀ e ∈ es, e ∈ s.stored
  sorted : es.Pairwise fun e f => e.ticket < f.ticket
  ahead : ∀ e ∈ es, ∀ j f, s.ring.Drained j →
    (s.ring.ring (s.ring.visit j)).logline = .line f → e.ticket < f.ticket
  drained : ∀ i j e f, i < j → s.ring.Drained j →
    (s.ring.ring (s.ring.visit i)).logline = .line e →
    (s.ring.ring (s.ring.visit j)).logline = .line f → e.ticket < f.ticket

theorem InSequence.init (N : ℕ) : InSequence (System.init N : System T α) [] where
  popped := rfl
  stored := by intro e he; cases he
  sorted := .nil
  ahead := by intro e he; cases he
  drained := by
    intro i j e f _ hd
    exact absurd hd.unread_readSlot (not_unread_new N _)

theorem InSequence.afterPop {s : System T α} {es : List (Entry α)} (h : InSequence s es)
    (ht : Tickets N s) : ∃ es, InSequence s.afterPop es := by
  by_cases hu : s.ring.Unread s.ring.readSlot
  · obtain ⟨e, he, hl, -⟩ := ht.unread _ hu
    have hl0 : (s.ring.ring (s.ring.visit 0)).logline = .line e := by rwa [visit_zero]
    have behind {j : ℕ} {f : Entry α} (hd : s.ring.advance.Drained j)
        (hf : (s.ring.advance.ring (s.ring.advance.visit j)).logline = .line f) :
        s.ring.Drained (j + 1) ∧ (s.ring.ring (s.ring.visit (j + 1))).logline = .line f := by
      have hd' := Drained.of_advance hu hd
      refine ⟨hd', ?_⟩
      rwa [visit_advance, ring_advance_of_ne _ (hd'.visit_ne le_rfl)] at hf
    refine ⟨es ++ [e], ?_⟩
    rw [afterPop_of_unread hu]
    constructor
    case popped => rw [List.map_append, ← h.popped, hl]; rfl
    case stored =>
      intro f hf
      rcases List.mem_append.1 hf with hf | hf
      · exact h.stored f hf
      · rwa [List.mem_singleton.1 hf]
    case sorted =>
      refine List.pairwise_append.2 ⟨h.sorted, List.pairwise_singleton _ _, fun f hf g hg => ?_⟩
      rw [List.mem_singleton.1 hg]
      exact h.ahead f hf 0 e (drained_zero hu) hl0
    case ahead =>
      intro f hf j g hd hg
      obtain ⟨hd', hg'⟩ := behind hd hg
      rcases List.mem_append.1 hf with hf | hf
      · exact h.ahead f hf _ g hd' hg'
      · rw [List.mem_singleton.1 hf]
        exact h.drained 0 _ e g (Nat.succ_pos j) hd' hl0 hg'
    case drained =>
      intro i j f g hij hd hf hg
      have hi : s.ring.advance.Drained i :=
        ⟨fun l hl => hd.1 l (hl.trans hij.le), hd.2.mono fun l hl => le_trans hl hij.le⟩
      exact h.drained _ _ f g (Nat.succ_lt_succ hij) (behind hd hg).1 (behind hi hf).2
        (behind hd hg).2
  · rw [afterPop_of_not_unread hu]
    exact ⟨es, h⟩

theorem entries_pairwise (s : System T α) :
    s.entries.Pairwise fun e f => e.ticket < f.ticket := by
  rw [List.pairwise_iff_getElem]
  intro i j hi hj hij
  simpa [System.entries] using hij

theorem InSequence.popped_sublist {s : System T α} {es : List (Entry α)} (h : InSequence s es)
    (ht : Tickets N s) : s.popped.Sublist (s.entries.map Cell.line) := by
  have hnodup : es.Nodup := h.sorted.imp fun hlt heq => absurd (congrArg Entry.ticket heq) hlt.ne
  have hsub : es.Subperm s.entries :=
    List.subperm_of_subset hnodup fun e he => ht.mem_entries (h.stored e he)
  let _ : Std.Antisymm fun e f : Entry α => e.ticket < f.ticket :=
    ⟨fun _ _ hlt hgt => absurd hgt hlt.asymm⟩
  rw [h.popped]
  exact (List.sublist_of_subperm_of_pairwise hsub h.sorted (entries_pairwise s)).map _

/-! ## The effect of a push -/

/-- When a push does not store in front, the consumer meets the new line last or not at all. -/
theorem visit_ne_writeSlot {r : RingBuffer α} {a : α} {i j : ℕ} (hfront : ¬ r.PushesInFront)
    (hd : (r.push a).Drained j) (hij : i < j) : r.visit i ≠ r.writeSlot := by
  intro heq
  have old : ∀ l ≤ j, l ≠ i → r.Unread (r.visit l) := fun l hl hne =>
    ((unread_push r _ a).1 (hd.1 l hl)).resolve_left fun hw =>
      hne (hd.2 hl hij.le (hw.trans heq.symm))
  exact hfront ⟨i, heq, fun l hl => old l (hl.le.trans hij.le) hl.ne,
    old _ hij (Nat.succ_ne_self i), hd.2.mono (Set.Iic_subset_Iic.2 hij)⟩

theorem Drained.of_push {r : RingBuffer α} {a : α} {j : ℕ} (hd : (r.push a).Drained j)
    (hne : ∀ i ≤ j, r.visit i ≠ r.writeSlot) : r.Drained j :=
  ⟨fun i hi => ((unread_push r _ a).1 (hd.1 i hi)).resolve_left (hne i hi), hd.2⟩

variable [DecidableEq T]

theorem InSequence.push {s : System T α} {es : List (Entry α)} (h : InSequence s es)
    (ht : Tickets N s) (hfront : ¬ s.ring.PushesInFront) (t : T) (a : α) :
    InSequence (s.call (.push t a)) es := by
  have newest {e : Entry α} (he : e ∈ s.stored) : e.ticket < s.claims.length :=
    ht.ticket_lt_of_mem he
  have hself {f : Entry α}
      (hf : ((s.call (.push t a)).ring.ring s.ring.writeSlot).logline = .line f) :
      f = ⟨s.claims.length, a⟩ := by
    rw [ring_call_push, ring_push_self] at hf
    exact (Cell.line.inj hf).symm
  have hother {i : ℕ} (hi : i ≠ s.ring.writeSlot) :
      (s.call (.push t a)).ring.ring i = s.ring.ring i := by
    rw [ring_call_push, ring_push_of_ne _ _ hi]
  have last {j : ℕ} (hd : (s.call (.push t a)).ring.Drained j) :
      (∀ i < j, s.ring.visit i ≠ s.ring.writeSlot) ∧
        (s.ring.visit j ≠ s.ring.writeSlot → s.ring.Drained j) := by
    have hlt : ∀ i < j, s.ring.visit i ≠ s.ring.writeSlot :=
      fun i hi => visit_ne_writeSlot hfront hd hi
    exact ⟨hlt, fun hne => hd.of_push fun i hi =>
      (Nat.lt_or_eq_of_le hi).elim (hlt i) fun heq => heq ▸ hne⟩
  constructor
  case popped => exact h.popped
  case stored => exact fun e he => List.mem_append_left _ (h.stored e he)
  case sorted => exact h.sorted
  case ahead =>
    intro e he j f hd hf
    change ((s.call (.push t a)).ring.ring (s.ring.visit j)).logline = _ at hf
    by_cases hw : s.ring.visit j = s.ring.writeSlot
    · rw [hw] at hf
      rw [hself hf]
      exact newest (h.stored e he)
    · rw [hother hw] at hf
      exact h.ahead e he j f ((last hd).2 hw) hf
  case drained =>
    intro i j e f hij hd he hf
    change ((s.call (.push t a)).ring.ring (s.ring.visit i)).logline = _ at he
    change ((s.call (.push t a)).ring.ring (s.ring.visit j)).logline = _ at hf
    have hi := (last hd).1 i hij
    rw [hother hi] at he
    by_cases hw : s.ring.visit j = s.ring.writeSlot
    · rw [hw] at hf
      rw [hself hf]
      have hu : s.ring.Unread (s.ring.visit i) :=
        ((unread_push s.ring _ _).1 (hd.1 i hij.le)).resolve_left hi
      obtain ⟨g, hg, hlg, -⟩ := ht.unread _ hu
      rw [he] at hlg
      rw [Cell.line.inj hlg]
      exact newest hg
    · rw [hother hw] at hf
      exact h.drained i j e f hij ((last hd).2 hw) he hf

theorem exists_inSequence (calls : List (Call T α))
    (h : ∀ p t a, p ++ [.push t a] <+: calls → ¬ (run N p).ring.PushesInFront) :
    ∃ es, InSequence (run N calls) es := by
  induction calls using List.reverseRecOn with
  | nil => exact ⟨[], .init N⟩
  | append_singleton p c ih =>
    obtain ⟨es, hes⟩ := ih fun q t a hq => h q t a (hq.trans (List.prefix_append p _))
    have ht := Tickets.of_reachable (run_reachable N p)
    rw [run_append]
    cases c with
    | push t a => exact ⟨es, hes.push ht (h p t a (List.prefix_refl _)) t a⟩
    | tryPop => exact hes.afterPop ht

/-! ## The consumer's next lines -/

theorem popped_of_drained {s : System T α} {j : ℕ} (h : s.ring.Drained j) :
    ((List.replicate (j + 1) (Call.tryPop : Call T α)).foldl System.call s).popped =
      s.popped ++ (List.range (j + 1)).map fun i => (s.ring.ring (s.ring.visit i)).logline := by
  induction j generalizing s with
  | zero =>
    show s.afterPop.popped = _
    rw [afterPop_of_unread h.unread_readSlot]
    simp [visit_zero]
  | succ j ih =>
    have hstep : (List.replicate (j + 1 + 1) (Call.tryPop : Call T α)).foldl System.call s =
        (List.replicate (j + 1) (Call.tryPop : Call T α)).foldl System.call s.afterPop := rfl
    rw [hstep, ih (by rw [afterPop_of_unread h.unread_readSlot]; exact h.advance),
      afterPop_of_unread h.unread_readSlot, List.range_succ_eq_map (n := j + 1), List.map_cons,
      List.map_map, ← visit_zero, List.append_assoc]
    refine congrArg (s.popped ++ ·) (congrArg (_ :: ·) (List.map_congr_left fun i hi => ?_))
    have hi : i + 1 ≤ j + 1 := Nat.succ_le_of_lt (List.mem_range.1 hi)
    rw [Function.comp_apply, visit_advance, ring_advance_of_ne _ (h.visit_ne hi)]

/-- After a push in front, the next pops return the new line and then an older one. -/
theorem not_sublist_of_pushesInFront {s : System T α} (ht : Tickets N s)
    (hfront : s.ring.PushesInFront) (t : T) (a : α) :
    ∃ n, ∀ es : List (Entry α), (es.Pairwise fun e f => e.ticket < f.ticket) →
      ¬ ((List.replicate n (Call.tryPop : Call T α)).foldl System.call
          (s.call (.push t a))).popped.Sublist (es.map Cell.line) := by
  obtain ⟨j, hj, hthrough, hnext, hinj⟩ := hfront
  have hne : s.ring.visit (j + 1) ≠ s.ring.writeSlot := fun heq =>
    Nat.succ_ne_self j (hinj (Set.mem_Iic.2 le_rfl) (Nat.le_succ j) (heq.trans hj.symm))
  have hd : (s.call (.push t a)).ring.Drained (j + 1) := by
    refine ⟨fun i hi => (unread_push s.ring _ _).2 ?_, hinj⟩
    rcases Nat.lt_trichotomy i j with hlt | rfl | hgt
    · exact .inr (hthrough i hlt)
    · exact .inl hj
    · obtain rfl : i = j + 1 := le_antisymm hi hgt
      exact .inr hnext
  obtain ⟨g, hg, hlg, -⟩ := ht.unread _ hnext
  refine ⟨j + 1 + 1, fun es hes hsub => ?_⟩
  rw [popped_of_drained hd, List.range_succ, List.range_succ, List.map_append, List.map_append,
    List.append_assoc, ← List.append_assoc] at hsub
  have hpair := hes.map Cell.line (S := fun c d => ∀ e f : Entry α, c = .line e → d = .line f →
    e.ticket < f.ticket) fun e f hef e' f' he hf => by
      rwa [← Cell.line.inj he, ← Cell.line.inj hf]
  have hlast := (List.pairwise_append.1 (hpair.sublist hsub)).2.1
  have hlt := List.rel_of_pairwise_cons hlast (List.mem_singleton.2 rfl)
    ⟨s.claims.length, a⟩ g ?_ ?_
  · exact absurd hlt (ht.ticket_lt_of_mem hg).asymm
  · show ((s.ring.push _).ring (s.ring.visit j)).logline = _
    rw [hj, ring_push_self]
  · show ((s.ring.push _).ring (s.ring.visit (j + 1))).logline = _
    rw [ring_push_of_ne _ _ hne]
    exact hlg

omit [DecidableEq T] in
/-- The pushes of a run followed by `tryPop` calls are the pushes of the run. -/
theorem prefix_of_prefix_replicate {p q : List (Call T α)} {n : ℕ} {t : T} {a : α}
    (h : q ++ [.push t a] <+: p ++ List.replicate n .tryPop) : q ++ [.push t a] <+: p := by
  induction n with
  | zero => simpa using h
  | succ n ih =>
    rw [List.replicate_succ', ← List.append_assoc] at h
    rcases List.prefix_concat_iff.1 h with heq | hpre
    · cases (List.append_inj_right' heq rfl : [_] = [_])
    · exact ih hpre

/-- For every ring size and every run of whole calls: after every prefix of the run the lines
returned, by the run itself and by any number of further `tryPop` calls, are a subsequence of the
lines pushed, if and only if no push of the run stores in front of an unread line. -/
theorem popped_sublist_iff (calls : List (Call T α)) :
    (∀ p, p <+: calls → ∀ n, (run N (p ++ List.replicate n .tryPop)).popped.Sublist
        ((run N (p ++ List.replicate n .tryPop)).entries.map Cell.line)) ↔
      ∀ p t a, p ++ [.push t a] <+: calls → ¬ (run N p).ring.PushesInFront := by
  constructor
  · intro h p t a hp hfront
    obtain ⟨n, hn⟩ := not_sublist_of_pushesInFront (.of_reachable (run_reachable N p)) hfront t a
    have hsub := h _ hp n
    rw [run_append, run_append] at hsub
    exact hn _ (entries_pairwise _) hsub
  · intro h p hp n
    have hpush : ∀ q t a, q ++ [.push t a] <+: p ++ List.replicate n .tryPop →
        ¬ (run N q).ring.PushesInFront :=
      fun q t a hq => h q t a ((prefix_of_prefix_replicate hq).trans hp)
    obtain ⟨es, hes⟩ := exists_inSequence _ hpush
    exact hes.popped_sublist (.of_reachable (run_reachable N _))

/-- Two slots, three pushes: the third line is returned before the second. -/
theorem exists_popped_not_sublist : ¬ ∀ N, 0 < N → ∀ calls : List (Call Unit ℕ),
    (run N calls).popped.Sublist ((run N calls).entries.map Cell.line) := by
  intro hall
  have h := hall 2 (by decide) [.push () 0, .push () 1, .push () 2, .tryPop, .tryPop]
  revert h
  decide

end RingBuffer

end ZephyrLog
