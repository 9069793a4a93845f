import ZephyrLog.Lib.Fairness
import ZephyrLog.Lib.Threads
import ZephyrLog.RingBuffer.Atomicity
import ZephyrLog.RingBuffer.Order

/-!
# Every call on the ring returns

The only wait of `push` and `tryPop` is that for the flag of one item, and whoever holds a flag
waits for nothing.  So every operation that is not such a wait brings a call nearer to its end, and
under every fair schedule of the calls in flight all of them return, with each line pushed in the
ring, returned or overwritten.
-/

namespace ZephyrLog

namespace RingBuffer

theorem nodup_entries {T α : Type} (s : RingBuffer.System T α) : s.entries.Nodup :=
  (entries_pairwise s).imp fun hlt heq => absurd (congrArg Entry.ticket heq) hlt.ne

/-- With no push in flight the lines claimed have been stored. -/
theorem stored_eq_entries {T α : Type} {N : ℕ} {s : RingBuffer.System T α} (h : Tickets N s)
    (hquiet : s.NoPushInFlight) : (s.stored : Multiset (Entry α)) = s.entries := by
  refine Multiset.coe_eq_coe.2 ((List.perm_ext_iff_of_nodup h.nodup (nodup_entries s)).2 fun e =>
    ⟨h.mem_entries, fun he => ?_⟩)
  obtain ⟨i, hi, rfl⟩ := List.mem_mapIdx.1 he
  rcases h.accounted i hi with ⟨t, j, f, ht, -⟩ | ⟨f, hf, rfl⟩
  · cases (hquiet t).symm.trans ht
  · obtain ⟨c, hc, hline⟩ := h.stored f hf
    rwa [(List.getElem_eq_iff hi).2 hc, hline]

/-- A ring that was never overrun and finds nothing, with no push in flight, returned all lines. -/
theorem popped_eq_of_drained {T α : Type} {N : ℕ} {s : RingBuffer.System T α} (h : Tickets N s)
    (ho : InOrder N s) (hquiet : s.NoPushInFlight) (hdrained : ¬ s.ring.Unread s.ring.readSlot) :
    s.popped = s.entries.map Cell.line := by
  have hlen : s.claims.length ≤ s.popped.length := by
    refine Nat.le_of_not_lt fun hlt => hdrained ?_
    rcases h.accounted _ hlt with ⟨t, i, e, ht, -⟩ | ⟨e, he, hticket⟩
    · cases (hquiet t).symm.trans ht
    · rw [ho.readSlot h, ← hticket]
      exact ho.stored e he hticket.ge
  rw [ho.popped, List.take_of_length_le]
  rwa [System.entries, List.length_mapIdx]

namespace Locked

variable {T α : Type} {N : ℕ}

/-- The operation belongs to a call that is in progress. -/
def Label.InProgress : Label T α → Prop
  | .produce _ | .consume => True
  | .push .. | .tryPop => False

/-- The operations up to the end of a push. -/
def Producer.left : Producer α → ℕ
  | .idle => 0
  | .pushing _ _ .acquire => 4
  | .pushing _ _ .move => 3
  | .pushing _ _ .mark => 2
  | .pushing _ _ .release => 1

/-- The operations up to the end of a `tryPop`. -/
def Consumer.left : Consumer → ℕ
  | .outside _ => 0
  | .acquire _ => 5
  | .check _ => 4
  | .move _ => 3
  | .clear _ => 2
  | .release .. => 1

/-- No `push` and no `tryPop` is in flight. -/
def System.Quiet (s : System T α) : Prop :=
  (∀ t, s.producers t = .idle) ∧ ∃ result, s.consumer = .outside result

section Left

variable [Fintype T] {s s' : System T α} {t : T} {i : ℕ} {e : Entry α}

/-- The operations up to the end of all calls in flight. -/
def System.left (s : System T α) : ℕ :=
  Threads.total Producer.left s.producers + s.consumer.left

variable [DecidableEq T]

theorem left_setProducer_lt {p p' : Producer (Entry α)} (hp : s.producers t = p)
    (hproducers : s'.producers = s.producers) (hconsumer : s'.consumer = s.consumer)
    (hlt : p'.left < p.left) : (s'.setProducer t p').left < s.left := by
  have hu := Threads.total_update Producer.left s.producers t p'
  rw [hp] at hu
  rw [System.left, System.left]
  show Threads.total _ (Function.update s'.producers t p') + s'.consumer.left < _
  rw [hproducers, hconsumer]
  omega

omit [Fintype T] in
/-- An operation of the consumer that is no wait brings `tryPop` nearer to its end. -/
theorem consumer_left_lt (hs : Step s .consume s') :
    s' = s ∨ s'.consumer.left < s.consumer.left ∧ s'.producers = s.producers := by
  cases hs with
  | wait i hc hflag => exact .inl rfl
  | lock i hc hflag | found i hc hu | empty i hc hu | moveOut i hc | clear i hc
  | unlock i result hc =>
    exact .inr ⟨by rw [hc]; simp [System.await, Consumer.left], rfl⟩

theorem less {l : Label T α} (hl : l.InProgress) (hs : Step s l s') :
    s' = s ∨ s'.left < s.left := by
  cases l with
  | consume =>
    refine (consumer_left_lt hs).imp_right fun ⟨hlt, hproducers⟩ => ?_
    rw [System.left, System.left, hproducers]
    exact Nat.add_lt_add_left hlt _
  | produce t =>
    cases hs with
    | spin => exact .inl rfl
    | acquire _ i e ht hflag | move _ i e ht | mark _ i e ht | release _ i e ht =>
      exact .inr (left_setProducer_lt ht rfl rfl (Nat.lt_succ_self _))
  | push | tryPop => exact hl.elim

end Left

section Runs

variable [DecidableEq T] {s s' : System T α}

/-- A call in progress is no new push. -/
theorem entries_of_inProgress (h : (machine T α N).Reaches (fun _ => Label.InProgress) s s') :
    s'.entries = s.entries := by
  induction h with
  | refl => rfl
  | @tail s₁ s₂ l _ hl hs ih =>
    refine Eq.trans ?_ ih
    cases Step.of_step hs with
    | claim t a ht => exact hl.elim
    | _ => rfl

theorem goesOn_of_producer {t : T} {i : ℕ} {e : Entry α} {pc : Pc}
    (ht : s.producers t = .pushing i e pc) (hpc : pc = .acquire → s.flags i = false) :
    ∃ l s', l.InProgress ∧ s.step l = some s' ∧ s' ≠ s := by
  refine ⟨.produce t, s.produce t i e pc, trivial, by simp [System.step, ht], fun heq => ?_⟩
  have hstays : (s.produce t i e pc).producers t = .pushing i e pc := by rw [heq, ht]
  cases pc with
  | acquire => simp [System.produce, hpc rfl, System.setProducer] at hstays
  | _ => simp [System.produce, System.setProducer] at hstays

omit [DecidableEq T] in
/-- The consumer goes on unless it waits for the lock. -/
theorem exists_consume (hout : ∀ r, s.consumer ≠ .outside r)
    (hlock : ∀ i, s.consumer = .acquire i → s.flags i = false) :
    ∃ s', s.consume = some s' ∧ s' ≠ s := by
  obtain ⟨s', hs⟩ : ∃ s', s.consume = some s' := by
    cases hc : s.consumer with
    | outside r => exact absurd hc (hout r)
    | _ => simp [System.consume, hc]
  refine ⟨s', hs, fun heq => ?_⟩
  have hstays : s.consume.map System.consumer = some s.consumer := by
    rw [hs, heq]
    rfl
  cases hc : s.consumer with
  | outside r => exact hout r hc
  | acquire i => simp [System.consume, hc, hlock i hc, System.await] at hstays
  | check i =>
    simp only [System.consume, hc, System.await, Option.map_some, Option.some.injEq] at hstays
    split at hstays <;> cases hstays
  | _ => simp [System.consume, hc, System.await] at hstays

theorem goesOn_of_consumer (hout : ∀ r, s.consumer ≠ .outside r)
    (hlock : ∀ i, s.consumer = .acquire i → s.flags i = false) :
    ∃ l s', l.InProgress ∧ s.step l = some s' ∧ s' ≠ s := by
  obtain ⟨s', hs, hne⟩ := exists_consume hout hlock
  exact ⟨.consume, s', trivial, hs, hne⟩

/-- Whoever holds the lock of an item waits for nothing. -/
theorem goesOn_of_flag (hx : Excluded s) {i : ℕ} (hflag : s.flags i = true) :
    ∃ l s', l.InProgress ∧ s.step l = some s' ∧ s' ≠ s := by
  obtain ⟨who, hwho⟩ := (hx.flag_iff i).1 hflag
  cases who with
  | none =>
    rw [holds_consumer] at hwho
    refine goesOn_of_consumer (fun r hc => ?_) (fun j hc => ?_) <;> rw [hc] at hwho <;>
      cases hwho
  | some t =>
    rw [holds_producer] at hwho
    cases ht : s.producers t with
    | idle =>
      rw [ht] at hwho
      cases hwho
    | pushing j e pc =>
      rw [ht] at hwho
      refine goesOn_of_producer ht ?_
      rintro rfl
      cases hwho

/-- While a call is in flight, one goes on. -/
theorem goesOn (hx : Excluded s) (hflight : ¬ s.Quiet) :
    ∃ l s', l.InProgress ∧ s.step l = some s' ∧ s' ≠ s := by
  by_cases hflags : ∃ i, s.flags i = true
  · obtain ⟨i, hi⟩ := hflags
    exact goesOn_of_flag hx hi
  · have hfree (i : ℕ) : s.flags i = false := Bool.eq_false_iff.2 fun hi => hflags ⟨i, hi⟩
    by_cases hidle : ∀ t, s.producers t = .idle
    · exact goesOn_of_consumer (fun r hc => hflight ⟨hidle, r, hc⟩) fun i _ => hfree i
    · obtain ⟨t, ht⟩ := not_forall.1 hidle
      cases hp : s.producers t with
      | idle => exact absurd hp ht
      | pushing i e pc => exact goesOn_of_producer hp fun _ => hfree i

omit [DecidableEq T] in
theorem Quiet.holds (h : s.Quiet) (who : Option T) : s.holds who = none := by
  cases who with
  | none =>
    obtain ⟨r, hc⟩ := h.2
    rw [holds_consumer, hc]
    rfl
  | some t =>
    rw [holds_producer, h.1]
    rfl

/-- Each line claimed from the ring `s`, whose run is that of the atomic ring `a`, has been
returned, is in the ring or was overwritten, each once; and a line was overwritten by a later store
into its slot. -/
structure Accounted (N : ℕ) (s : System T α) (a : RingBuffer.System T α) : Prop where
  ring : a.ring = s.ring
  popped : a.popped = s.popped
  total : ((s.entries.map Cell.line : List (Cell (Entry α))) : Multiset (Cell (Entry α))) =
    s.popped + (a.overwritten.map Prod.fst : List (Cell (Entry α))) + s.ring.held
  nodup : (s.entries.map Cell.line).Nodup
  replaced : ∀ p ∈ a.overwritten, ∃ e, p.1 = .line e ∧ [e, p.2].Sublist a.stored ∧
    slotOf N p.2.ticket = slotOf N e.ticket

/-- With no call in flight each line claimed has been returned, overwritten or left in the ring. -/
theorem accounted_of_quiet (hN : 0 < N) {a : RingBuffer.System T α}
    (ha : (RingBuffer.machine T α N).Reachable Machine.anyStep a) (h : Refines s a)
    (hquiet : s.Quiet) : Accounted N s a := by
  obtain ⟨hring, hpopped⟩ := h.of_free (Quiet.holds hquiet)
  have hidle : a.NoPushInFlight := fun t => by rw [h.producers, hquiet.1]; rfl
  have hc := Conserved.of_reachable hN ha
  refine ⟨hring, hpopped, ?_, ?_, hc.replaced⟩
  · rw [← h.entries, ← hpopped, ← hring, ← hc.total, ← Multiset.map_coe,
      ← stored_eq_entries (Tickets.of_reachable ha) hidle, Multiset.map_coe]
  · rw [← h.entries]
    exact (nodup_entries a).map Cell.line_injective

end Runs

/-- The ring with the stores and the looks at marks of its run. -/
def recorded (T α : Type) [DecidableEq T] (N : ℕ) :
    Machine (System T α × List (RingBuffer.Label T α)) (Label T α) :=
  (machine T α N).record fun s l => (answer s l).toList

/-- The calls in flight return: in every reachable state, and under every schedule of the calls in
progress that gives each thread and the consumer its turn again and again, there is a time at which
no call is in flight and no flag is set.  Then each line that has been pushed has been returned, is
in the ring or was overwritten in the run, by a later store into its slot. -/
theorem calls_return [Fintype T] [DecidableEq T] (hN : 0 < N) {s : System T α}
    {es : List (RingBuffer.Label T α)}
    (h : (recorded T α N).Reachable Machine.anyStep (s, es)) {σ : ℕ → Label T α}
    (hfair : Machine.Fair σ Label.InProgress) (hcalls : ∀ n, (σ n).InProgress) :
    ∃ n s' es' a, (recorded T α N).run (s, es) σ n = (s', es') ∧ s'.Quiet ∧
      (∀ i, s'.flags i = false) ∧ s'.entries = s.entries ∧
      (RingBuffer.machine T α N).exec (RingBuffer.System.init N) es' = some a ∧
      Accounted N s' a := by
  have hrecord : ((machine T α N).record fun s l => (answer s l).toList).Reachable
      (fun x l => Machine.anyStep x.1 l) (s, es) := h
  have hs := hrecord.of_record
  have hany {t : System T α} (ht : (machine T α N).Reaches (fun _ => Label.InProgress) s t) :
      (machine T α N).Reachable Machine.anyStep t := hs.trans (ht.mono fun _ _ _ => trivial)
  obtain ⟨n, hquiet⟩ := Machine.Fair.exists_done (M := machine T α N) (s := s)
    (fun _ => Label.InProgress) System.left System.Quiet
    (fun _ _ _ _ hl hs => less hl (Step.of_step hs))
    (fun t ht hflight => by
      obtain ⟨a, -, hx, -⟩ := (simulates_anyStep N).reaches (hany ht)
      exact goesOn hx hflight) hfair hcalls
  have hr : (machine T α N).Reaches (fun _ => Label.InProgress) s ((machine T α N).run s σ n) :=
    Machine.run_reaches hcalls n
  have hany' (n : ℕ) : Machine.anyStep ((machine T α N).run s σ n) (σ n) := trivial
  obtain ⟨es', hrun, hreach⟩ := Machine.run_record (fun s l => (answer s l).toList) es hany' n
  obtain ⟨a, hexec, ha, hx, href⟩ := (simulates_anyStep N).trace (hrecord.trans hreach)
  generalize (machine T α N).run s σ n = s' at hquiet hr hrun hx href
  refine ⟨n, s', es', a, hrun, hquiet, fun i => Bool.eq_false_iff.2 fun hi => ?_,
    entries_of_inProgress hr, hexec, accounted_of_quiet hN ha href hquiet⟩
  obtain ⟨who, hwho⟩ := (hx.flag_iff i).1 hi
  cases (Quiet.holds hquiet who).symm.trans hwho

/-- Two threads and the consumer take turns. -/
def inTurn (n : ℕ) : Label Bool ℕ :=
  match n % 3 with
  | 0 => .produce false
  | 1 => .produce true
  | _ => .consume

theorem fair_inTurn : Machine.Fair inTurn Label.InProgress := by
  refine .of_periodic (Nat.succ_pos 2) (fun n => by simp [inTurn]) fun l hl => ?_
  cases l with
  | produce t =>
    cases t with
    | false => exact ⟨0, rfl⟩
    | true => exact ⟨1, rfl⟩
  | consume => exact ⟨2, rfl⟩
  | push | tryPop => exact hl.elim

theorem inProgress_inTurn (n : ℕ) : (inTurn n).InProgress := by
  unfold inTurn
  split <;> trivial

/-- Two pushes on one slot, of which the second waits for the lock of the first. -/
theorem calls_return_two : ∃ (s : System Bool ℕ) (es : List (RingBuffer.Label Bool ℕ)),
    s.flags 0 = true ∧ ∃ n s' es' a, (recorded Bool ℕ 1).run (s, es) inTurn n = (s', es') ∧
      s'.Quiet ∧ s'.flags 0 = false ∧ Accounted 1 s' a := by
  obtain ⟨s, hs, hflag⟩ := Option.map_eq_some_iff.1 (show
    ((machine Bool ℕ 1).exec (.init 1) [.push false 7, .push true 8, .produce false, .tryPop]).map
      (fun s => s.flags 0) = some true from rfl)
  have hreach : (machine Bool ℕ 1).Reachable Machine.anyStep s :=
    .of_exec _ (fun _ _ _ => trivial) hs
  obtain ⟨es, h⟩ := hreach.record fun s l => (answer s l).toList
  obtain ⟨n, s', es', a, hrun, hquiet, hflags, -, -, haccounted⟩ :=
    calls_return (by decide) h fair_inTurn inProgress_inTurn
  exact ⟨s, es, hflag, n, s', es', a, hrun, hquiet, hflags 0, haccounted⟩

end Locked

end RingBuffer

end ZephyrLog
