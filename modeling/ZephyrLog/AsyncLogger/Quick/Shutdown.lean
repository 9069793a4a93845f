import ZephyrLog.AsyncLogger.Quick.Model
import ZephyrLog.AsyncLogger.Termination
import ZephyrLog.RingBuffer.Completion

/-!
# Shutdown of the Quick logger

The ring fulfils the contract of the logger as well: with no push in flight the worker waits for no
lock, and `tryPop` fails only when the slot of `m_readIndex` has no line.  So the destructor returns
as in the Safe mode.  What has been written then is another matter.  Each line is written, was
overwritten or is left in the ring; all of them are written, in the order of their claims, if the
ring was never overrun and its size divides `2 ^ 32`.
-/

namespace ZephyrLog

namespace RingBuffer

namespace Locked

variable {T α : Type} {N : ℕ} {s s' : System T α}

/-- The line that `tryPop` has moved out and is to return, or has just returned. -/
def System.inHand (s : System T α) : List (Cell (Entry α)) :=
  match s.consumer with
  | .clear _ | .release _ true | .outside (some true) => [s.logline]
  | _ => []

/-- `tryPop` is to return false, or has just returned it. -/
def Consumer.Failed : Consumer → Prop
  | .release _ false | .outside (some false) => True
  | _ => False

/-- The slot of `m_readIndex` has no line for `tryPop`. -/
def System.Drained (s : System T α) : Prop := ¬ s.ring.Unread s.ring.readSlot

instance [DecidableEq T] : ObservedBuffer (System T α) T α (Entry α) where
  entries := System.entries
  popped := System.popped
  inHand := System.inHand
  Failed s := s.consumer.Failed
  Drained := System.Drained
  left s := s.consumer.left

/-- Outside of `tryPop` the consumer keeps what it has returned. -/
theorem result_eq_some {r : Option Bool} (h : s.consumer.result = some r) :
    s.consumer = .outside r := by
  cases hc : s.consumer with
  | outside r' =>
    rw [hc] at h
    exact congrArg _ (Option.some.inj h)
  | _ =>
    rw [hc] at h
    cases h

/-- With no push in flight nobody but the consumer can hold the lock of an item. -/
theorem flag_of_quiet (hx : Excluded s) (hquiet : s.NoPushInFlight)
    (hc : s.consumer.holds = none) (i : ℕ) : s.flags i = false := by
  refine Bool.eq_false_iff.2 fun hflag => ?_
  obtain ⟨who, hwho⟩ := (hx.flag_iff i).1 hflag
  cases who with
  | none => cases hc.symm.trans hwho
  | some t =>
    rw [holds_producer, hquiet t] at hwho
    cases hwho

variable [DecidableEq T]

/-- No more lines are returned than have been claimed. -/
theorem popped_length_le (hN : 0 < N) {a : RingBuffer.System T α}
    (ha : (RingBuffer.machine T α N).Reachable Machine.anyStep a)
    (h : Refines s a) : s.popped.length ≤ s.entries.length := by
  have ht := RingBuffer.Tickets.of_reachable ha
  have htotal := congrArg Multiset.card (RingBuffer.Conserved.of_reachable hN ha).total
  have hstored : a.stored.length ≤ a.entries.length :=
    (List.subperm_of_subset ht.nodup fun e he => ht.mem_entries he).length_le
  have hpopped := congrArg List.length h.popped
  rw [h.entries] at hstored
  simp only [Multiset.coe_card, Multiset.card_add, List.length_map, List.length_append]
    at htotal hpopped
  omega

/-- A step of a producer leaves the consumer and its variable alone. -/
theorem consumer_of_produce {l : Label T α} (hs : Step s l s') (hl : l ≠ .tryPop)
    (hl' : l ≠ .consume) :
    s'.consumer = s.consumer ∧ s'.popped = s.popped ∧ s'.logline = s.logline := by
  cases hs <;> first | exact ⟨rfl, rfl, rfl⟩ | exact absurd rfl hl | exact absurd rfl hl'

/-- A step of the consumer leaves the producers alone, and claims nothing. -/
theorem producers_of_consume {l : Label T α} (hs : Step s l s') (hl : l = .tryPop ∨ l = .consume) :
    s'.producers = s.producers ∧ s'.entries = s.entries := by
  cases hs <;> first | exact ⟨rfl, rfl⟩ | simp at hl

/-- A line is popped when it comes into the consumer's hand. -/
theorem popped_consume (hs : Step s .consume s') {w : List (Cell (Entry α))}
    (hpop : s.popped = w ++ s.inHand) : s'.popped = w ++ s'.inHand := by
  cases hs with
  | wait i hc hflag => exact hpop
  | lock i hc hflag | found i hc hu | empty i hc hu | clear i hc =>
    simp only [System.inHand, hc] at hpop
    exact hpop
  | moveOut i hc =>
    simp only [System.inHand, hc, List.append_nil] at hpop
    exact congrArg (· ++ [(s.ring.ring i).logline]) hpop
  | unlock i result hc =>
    cases result <;> simp only [System.inHand, hc] at hpop <;> exact hpop

/-- `tryPop` returns true with a line in hand, or fails without one. -/
theorem result_consume (hs : Step s .consume s') {r : Option Bool}
    (hr : s'.consumer.result = some r) :
    r = some true ∨ r = some false ∧ s'.inHand = [] ∧ s'.consumer.Failed := by
  cases hs with
  | wait i hc hflag =>
    rw [hc] at hr
    cases hr
  | unlock i result hc =>
    cases hr
    cases result with
    | true => exact .inl rfl
    | false => exact .inr ⟨rfl, rfl, trivial⟩
  | _ => cases hr

/-- `tryPop` fails only when the slot of `m_readIndex` has no line, as long as nobody marks it. -/
theorem drained_consume (hcursor : ∀ i, s.consumer.cursor = some i → i = s.ring.readSlot)
    (hdrained : s.consumer.Failed → s.Drained) (hs : Step s .consume s')
    (hfailed : s'.consumer.Failed) : s'.Drained := by
  cases hs with
  | wait i hc hflag => exact hdrained hfailed
  | empty i hc hu =>
    rw [hcursor i (by rw [hc]; rfl)] at hu
    exact hu
  | unlock i result hc =>
    cases result with
    | true => exact hfailed.elim
    | false => exact hdrained (by rw [hc]; trivial)
  | lock | found | moveOut | clear => exact hfailed.elim

/-- The ring fulfils the contract of the logger. -/
theorem lawful (hN : 0 < N) : BufferBase.Lawful (System.init N : System T α) := by
  have hrun {b : System T α} (h : (BufferBase.machine (.init N)).Reachable Machine.anyStep b) :
      (machine T α N).Reachable Machine.anyStep b :=
    h.project id fun s op s' _ hs => by
      obtain ⟨l, -, hl⟩ := Option.bind_eq_some_iff.1 hs
      exact .single l trivial hl
  exact
    { result_init := ⟨_, rfl⟩
      popped_init := rfl
      of_producer := by
        intro b b' op hop hs
        obtain ⟨l, hl, hs⟩ := Option.bind_eq_some_iff.1 hs
        obtain ⟨hc, hpopped, hline⟩ := consumer_of_produce (Step.of_step hs)
          (by rintro rfl; cases op <;> first | exact hop | cases hl)
          (by rintro rfl; cases op <;> first | exact hop | cases hl)
        refine ⟨congrArg Consumer.result hc, hpopped, ?_⟩
        show b'.inHand = b.inHand
        simp only [System.inHand, hc, hline]
      of_consumer := by
        intro b b' op hop hs
        obtain ⟨l, hl, hs⟩ := Option.bind_eq_some_iff.1 hs
        obtain ⟨hproducers, hentries⟩ := producers_of_consume (Step.of_step hs)
          (by cases op <;> first | exact (hop trivial).elim | (cases hl; simp))
        exact ⟨hentries, fun hquiet t => (congrFun hproducers t).trans (hquiet t)⟩
      produce_of_quiet := by
        intro b t hquiet
        show b.step (.produce t) = none
        simp only [System.step, hquiet t]
      badAlloc_of_quiet := fun _ _ => rfl
      inHand_of_result := by
        intro b hresult
        have hc := result_eq_some hresult
        show b.inHand = [b.logline]
        simp only [System.inHand, hc]
      exists_tryPop := by
        intro b r hresult
        have hc := result_eq_some hresult
        have hsome : (b.step .tryPop).isSome := by simp [System.step, hc]
        exact Option.isSome_iff_exists.1 hsome
      tryPop := by
        intro b b' hs
        cases Step.of_step (s := b) (l := .tryPop) hs with
        | tryPop r hc =>
          refine ⟨rfl, rfl, rfl, id, ?_⟩
          show Consumer.left _ ≤ 12
          simp [System.await, Consumer.left]
      popped_consume := fun hs hpop => popped_consume (Step.of_step (l := .consume) hs) hpop
      result_consume := fun hs hr => result_consume (Step.of_step (l := .consume) hs) hr
      left_consume := fun hs =>
        (consumer_left_lt (Step.of_step (l := .consume) hs)).imp id And.left
      exists_consume := by
        intro b hr hquiet hresult
        obtain ⟨a, -, hx, -⟩ := (simulates_anyStep N).reaches (hrun hr)
        refine Locked.exists_consume (fun r hc => ?_) fun i hc => ?_
        · cases hresult.symm.trans (congrArg Consumer.result hc)
        · exact flag_of_quiet hx hquiet (by rw [hc]; rfl) i
      drained := by
        intro b b' hr _ hdrained hs hfailed
        obtain ⟨a, -, -, href⟩ := (simulates_anyStep N).reaches (hrun hr)
        exact drained_consume href.cursor hdrained (Step.of_step (l := .consume) hs) hfailed
      popped_subset := fun hr => (popped_distinct hN (hrun hr)).2
      popped_length_le := by
        intro b hr
        obtain ⟨a, ha, -, href⟩ := (simulates_anyStep N).reaches (hrun hr)
        exact Locked.popped_length_le hN ha href }

end Locked

end RingBuffer

namespace AsyncLogger

namespace Quick

open RingBuffer.Locked (Excluded Refines Accounted)

variable {T α : Type} {N : ℕ}

section Runs

variable [DecidableEq T] {s s' : System T α} {guard : System T α → Label T α → Prop}
  {guardRing : RingBuffer.Locked.System T α → RingBuffer.Locked.Label T α → Prop}
  {guard' : RingBuffer.System T α → RingBuffer.Label T α → Prop}

/-- A run of the logger is a run of its ring. -/
theorem ring_reaches (h : (machine T α N).Reaches guard s s') :
    (RingBuffer.Locked.machine T α N).Reaches Machine.anyStep s.buffer s'.buffer :=
  (buffer_reaches h).project id fun _ _ _ _ hs => by
    obtain ⟨l, -, hl⟩ := Option.bind_eq_some_iff.1 hs
    exact .single l trivial hl

/-- The logger's ring answers with the atomic ring. -/
theorem simulates {related : RingBuffer.Locked.System T α → RingBuffer.System T α → Prop}
    (hring : (RingBuffer.Locked.machine T α N).Simulates guardRing (RingBuffer.machine T α N) guard'
      RingBuffer.Locked.answer related)
    (hguard : ∀ s l l', guard s l → (s.operation l).bind RingBuffer.Locked.Label.ofOp = some l' →
      guardRing s.buffer l') :
    (machine T α N).Simulates guard (RingBuffer.machine T α N) guard' answer
      fun s a => related s.buffer a where
  init := hring.init
  step := by
    intro s l s' a h hg hs
    rcases buffer_of_step hs with ⟨hnone, hb⟩ | ⟨op, hop, hb⟩
    · refine ⟨a, ?_, by rwa [hb]⟩
      rw [answer, hnone]
      rfl
    · obtain ⟨l', hl', hstep⟩ := Option.bind_eq_some_iff.1 hb
      have heq : (s.operation l).bind RingBuffer.Locked.Label.ofOp = some l' := by
        rw [hop, Option.bind_some, hl']
      rw [answer, heq]
      exact hring.step s.buffer l' s'.buffer a h (hguard s l l' hg heq) hstep

theorem simulates_anyStep (N : ℕ) : (machine T α N).Simulates guard (RingBuffer.machine T α N)
    Machine.anyStep answer fun s a => Excluded s.buffer ∧ Refines s.buffer a :=
  simulates (RingBuffer.Locked.simulates_anyStep N) fun _ _ _ _ _ => trivial

/-- While the ring has room for every line, its run is one that does not overrun the consumer. -/
theorem simulates_notOverrun (N : ℕ) : (machine T α N).Simulates (Careful N)
    (RingBuffer.machine T α N) (RingBuffer.NotOverrun N) answer
    fun s a => Excluded s.buffer ∧ Refines s.buffer a := by
  refine simulates (RingBuffer.Locked.simulates_notOverrun N) ?_
  rintro s l l' hg hl' t a rfl
  obtain ⟨op, hop, hl'⟩ := Option.bind_eq_some_iff.1 hl'
  obtain rfl : op = .push t a := by
    cases op <;> cases hl'
    rfl
  cases l with
  | add u a' =>
    cases hop
    exact hg.2 t a rfl
  | work =>
    simp only [operation] at hop
    split at hop <;> cases hop
  | _ => cases hop

theorem working (hN : 0 < N) (h : (machine T α N).Reachable AddsReturned s) : Working s :=
  .of_reachable (RingBuffer.Locked.lawful hN) h

/-- At the end no call is in flight, and all that was returned is written. -/
theorem at_end (hN : 0 < N) (h : (machine T α N).Reachable AddsReturned s)
    (hend : s.worker = .ended) :
    s.buffer.Quiet ∧ s.buffer.popped = s.written ∧ s.buffer.Drained := by
  obtain ⟨hquiet, ⟨r, hresult⟩, hpopped, hdrained⟩ := (working hN h).at_end hend
  exact ⟨⟨hquiet, r, RingBuffer.Locked.result_eq_some hresult⟩, hpopped, hdrained⟩

/-- In a ring whose size divides `2 ^ 32` and that is never overrun nothing is left at the end. -/
theorem written_at_end (hN : 0 < N) (hdvd : N ∣ 2 ^ 32)
    (h : (machine T α N).Reachable (Careful N) s) (hend : s.worker = .ended) :
    s.written = s.buffer.entries.map Cell.line := by
  obtain ⟨hquiet, hpopped, hdrained⟩ := at_end hN (h.mono fun _ _ hg => hg.1) hend
  obtain ⟨a, ha, -, href⟩ := (simulates_notOverrun N).reaches h
  obtain ⟨hring, hreturned⟩ := href.of_free (RingBuffer.Locked.Quiet.holds hquiet)
  rw [← hpopped, ← hreturned, ← href.entries]
  refine RingBuffer.popped_eq_of_drained (.of_reachable ha) (.of_reachable hdvd ha)
    (fun t => ?_) ?_
  · rw [href.producers, hquiet.1]
    rfl
  · rw [hring]
    exact hdrained

/-- Once the destructor has begun, no line is added. -/
theorem entries_of_destroying (hN : 0 < N) (h : (machine T α N).Reachable AddsReturned s)
    (ho : s.owner.Destroying) (hr : (machine T α N).Reaches AddsReturned s s') :
    s'.buffer.entries = s.buffer.entries :=
  entries_of_reaches (RingBuffer.Locked.lawful hN)
    (destroying_of_reaches (RingBuffer.Locked.lawful hN) h ho hr).2.2

end Runs

/-- The destructor of the Quick logger returns: if every `add` has returned when it begins, then
under every schedule that gives worker and owner their turn again and again the worker ends and is
joined.  All that the ring has returned is then written, and each of the lines added was returned,
is left in the ring or was overwritten in the run by a later store into its slot. -/
theorem destructor_returns_quick [DecidableEq T] (hN : 0 < N) {s : System T α}
    {es : List (RingBuffer.Label T α)}
    (h : (recorded T α N).Reachable (fun x => AddsReturned x.1) (s, es)) (ho : s.owner.Destroying)
    {σ : ℕ → Label T α} (hfair : Machine.Fair σ fun l => l = .work ∨ l = .own)
    (hguard : ∀ n, AddsReturned ((machine T α N).run s σ n) (σ n)) :
    ∃ n s' es' a, (recorded T α N).run (s, es) σ n = (s', es') ∧ s'.owner = .joined ∧
      s'.worker = .ended ∧ s'.written = s'.buffer.popped ∧
      s'.buffer.entries = s.buffer.entries ∧
      (RingBuffer.machine T α N).exec (RingBuffer.System.init N) es' = some a ∧
      Accounted N s'.buffer a := by
  have hs : (machine T α N).Reachable AddsReturned s := Machine.Reaches.of_record h
  obtain ⟨n, howner, hworker⟩ :=
    exists_joined (RingBuffer.Locked.lawful hN) hs ho hfair hguard
  have hr := Machine.run_reaches hguard n
  obtain ⟨es', hrun, hreach⟩ := Machine.run_record (M := machine T α N)
    (fun s l => (answer s l).toList) es hguard n
  obtain ⟨a, hexec, ha, -, href⟩ := (simulates_anyStep N).trace (h.trans hreach)
  obtain ⟨hquiet, hpopped, -⟩ := at_end hN (hs.trans hr) hworker
  exact ⟨n, _, es', a, hrun, howner, hworker, hpopped.symm, entries_of_destroying hN hs ho hr,
    hexec, RingBuffer.Locked.accounted_of_quiet hN ha href hquiet⟩

/-- The calls of two threads, of which the second overwrites the first one's line if the ring has
only one item, and the destructor, which begins before the worker has seen `READY`. -/
def addingTwo (a b : T) (line line' : α) : List (Label T α) :=
  adding 4 a line ++ .own :: adding 4 b line' ++ [.destroy]

theorem careful_inTurn [DecidableEq T] (s : System T α) (n : ℕ) : Careful N s (inTurn T α n) := by
  refine ⟨addsReturned_inTurn s n, ?_⟩
  unfold inTurn
  split <;> simp [NotOverrun]

/-- The destructor of a logger whose ring was overrun. -/
theorem destructor_returns_quick_two : ∃ (s : System Bool ℕ) (es : List (RingBuffer.Label Bool ℕ)),
    s.buffer.entries = [⟨0, 7⟩, ⟨1, 8⟩] ∧ ∃ n s' es' a,
      (recorded Bool ℕ 1).run (s, es) (inTurn Bool ℕ) n = (s', es') ∧ s'.owner = .joined ∧
        s'.written = s'.buffer.popped ∧ Accounted 1 s'.buffer a := by
  obtain ⟨s, hs, hfin⟩ := Option.map_eq_some_iff.1 (show
    (((machine Bool ℕ 1).restrict AddsReturned).exec (.new (.init 1))
      (addingTwo false true 7 8)).map
      (fun s => (s.owner, s.buffer.entries)) = some (.destroying, [⟨0, 7⟩, ⟨1, 8⟩]) from rfl)
  obtain ⟨howner, hentries⟩ := Prod.mk.inj hfin
  have hreach : (machine Bool ℕ 1).Reachable AddsReturned s := .of_restrict hs
  obtain ⟨es, h⟩ := hreach.record fun s l => (answer s l).toList
  obtain ⟨n, s', es', a, hrun, hjoined, -, hwritten, -, -, haccounted⟩ :=
    destructor_returns_quick (by decide) h (by rw [howner]; trivial) (fair_inTurn Bool ℕ)
      fun n => addsReturned_inTurn _ n
  exact ⟨s, es, hentries, n, s', es', a, hrun, hjoined, hwritten, haccounted⟩

/-- A Quick logger whose ring of `2 ^ k` items is never overrun loses nothing: when the worker has
ended, it has written the lines of all calls of `add` in the order of their claims. -/
theorem written_of_notOverrun [DecidableEq T] {k : ℕ} (hk : k ≤ 31) {s : System T α}
    (h : (machine T α (2 ^ k)).Reachable (Careful (2 ^ k)) s) (hend : s.worker = .ended) :
    s.written = s.buffer.entries.map Cell.line :=
  written_at_end (Nat.two_pow_pos k) (pow_dvd_pow 2 (by omega)) h hend

/-- Two lines added to a ring of two items. -/
theorem written_of_notOverrun_two : ∃ s : System Bool ℕ, s.worker = .ended ∧
    s.written = [.line ⟨0, 7⟩, .line ⟨1, 8⟩] := by
  obtain ⟨s, hs, hfin⟩ := Option.map_eq_some_iff.1 (show
    (((machine Bool ℕ (2 ^ 1)).restrict (Careful (2 ^ 1))).exec (.new (.init (2 ^ 1)))
      (addingTwo false true 7 8 ++ .own :: List.replicate 20 .work)).map
        (fun s => (s.worker, s.buffer.entries)) =
        some (.ended, [⟨0, 7⟩, ⟨1, 8⟩]) from rfl)
  obtain ⟨hend, hentries⟩ := Prod.mk.inj hfin
  refine ⟨s, hend, ?_⟩
  rw [written_of_notOverrun (k := 1) (by decide) (.of_restrict hs) hend, hentries]
  rfl

end Quick

end AsyncLogger

end ZephyrLog
