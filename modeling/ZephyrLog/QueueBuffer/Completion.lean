import Mathlib.Data.Prod.Lex
import ZephyrLog.Lib.Fairness
import ZephyrLog.QueueBuffer.Exclusion
import ZephyrLog.QueueBuffer.Rest

/-!
# Every push returns

A producer waits at two places: for `m_flag`, and past the end of a buffer for the reset of
`m_writeIndex`.  As long as allocation succeeds neither wait is for ever: the holder of the lock can
go on, and past the end somebody is still to count a line or is switching.  With no new call, every
operation that is not such a wait brings the calls in flight nearer to their ends, a second round of
the spin loop included (`less`), so that under every fair schedule all of them return.
-/

namespace ZephyrLog

namespace QueueBuffer

variable {T α : Type}

/-- The operation belongs to a call that is in progress. -/
def Label.InProgress : Label T α → Prop
  | .produce _ | .consume => True
  | .push .. | .badAlloc _ | .tryPop => False

/-- How far a push is from its end; both places of the spin loop count the same. -/
def Pc.left : Pc → ℕ
  | .claim | .spin => 11
  | .load _ => 10
  | .construct .. => 9
  | .publish .. => 8
  | .count _ => 7
  | .lock => 6
  | .alloc => 5
  | .setWriteBuffer _ => 4
  | .enqueue _ => 3
  | .resetIndex => 2
  | .unlock => 1

/-- The operations up to the end of a `tryPop`. -/
def Consumer.left : Consumer → ℕ
  | .lockFront => 8
  | .front => 7
  | .unlockFront _ => 6
  | .load _ => 5
  | .move _ => 4
  | .lockPop => 3
  | .pop => 2
  | .unlockPop => 1
  | .outside _ => 0

/-- 1 before the `fetch_add` on `m_writeIndex`. -/
def Pc.claiming : Pc → ℕ
  | .claim => 1
  | _ => 0

/-- The turns of the spin loop that are left until a push claims an index or a buffer is switched:
before the end of the buffer a turn leads back to the claim, past it to the wait. -/
def System.turns [Fintype T] (s : System T α) : ℕ :=
  if s.queue.writeIndex.toNat < Buffer.size then s.total Pc.spinning else s.total Pc.claiming

/-- How far the calls in flight are from their ends. -/
def System.left [Fintype T] (s : System T α) : ℕ ×ₗ ℕ :=
  toLex (s.total Pc.left + s.consumer.left, s.turns)

/-! ## Each operation that is no wait brings the calls nearer to their ends -/

section Less

variable [Fintype T] {s s' : System T α} {t : T} {p : Push T α} {pc : Pc}

theorem left_lt (h : s'.total Pc.left + s'.consumer.left < s.total Pc.left + s.consumer.left) :
    s'.left < s.left := Prod.Lex.toLex_lt_toLex.2 (.inl h)

theorem left_lt_of_turns (h : s'.total Pc.left = s.total Pc.left) (hc : s'.consumer = s.consumer)
    (hturns : s'.turns < s.turns) : s'.left < s.left :=
  Prod.Lex.toLex_lt_toLex.2 (.inr ⟨by simp only [h, hc], hturns⟩)

omit [Fintype T] in
theorem consumer_left_advance_lt (s₁ : System T α) {b : ℕ} (hc : s.consumer = .move b)
    (hproducers : s₁.producers = s.producers) :
    s₁.advance.consumer.left < s.consumer.left ∧ s₁.advance.producers = s.producers := by
  rw [hc]
  unfold System.advance
  split <;> exact ⟨by simp [System.await, Consumer.left], hproducers⟩

variable [DecidableEq T]

/-- A thread goes on to an operation nearer to the end of its call, or leaves. -/
theorem left_update_lt (s₁ : System T α) {x : Producer T α} (ht : s.producers t = .pushing p pc)
    (hproducers : s₁.producers = s.producers) (hconsumer : s₁.consumer = s.consumer)
    (hx : x.weight Pc.left < pc.left) :
    { s₁ with producers := Function.update s₁.producers t x }.left < s.left := by
  have hu := total_update s t x Pc.left
  rw [ht, weight_pushing] at hu
  refine left_lt ?_
  show System.total { s₁ with producers := Function.update s₁.producers t x } _ + _ < _
  rw [System.total, hproducers, hconsumer]
  exact Nat.add_lt_add_right (show System.total { s with
    producers := Function.update s.producers t x } _ < _ by omega) _

theorem left_goto_lt (s₁ : System T α) {pc' : Pc} (ht : s.producers t = .pushing p pc)
    (hproducers : s₁.producers = s.producers) (hconsumer : s₁.consumer = s.consumer)
    (hpc : pc'.left < pc.left) : (s₁.goto t p pc').left < s.left :=
  left_update_lt s₁ ht hproducers hconsumer hpc

theorem left_leave_lt (s₁ : System T α) (ht : s.producers t = .pushing p pc)
    (hproducers : s₁.producers = s.producers) (hconsumer : s₁.consumer = s.consumer) :
    (s₁.leave t).left < s.left :=
  left_update_lt s₁ (x := .idle) ht hproducers hconsumer (by cases pc <;> exact Nat.succ_pos _)

/-- A push finds the buffer full. -/
theorem left_discard_lt (ht : s.producers t = .pushing p .claim)
    (hw : Buffer.size ≤ s.queue.writeIndex.toNat)
    (hroom : s.queue.writeIndex.toNat + 1 < 2 ^ 32) :
    ((s.setQueue s.queue.fetchAddWriteIndex).goto t p .spin).left < s.left := by
  have hu := total_update s t (.pushing p .spin) Pc.left
  have hv := total_update s t (.pushing p .spin) Pc.claiming
  rw [ht] at hu hv
  simp only [weight_pushing, Pc.left, Pc.claiming] at hu hv
  have hindex : Buffer.size ≤
      ((s.setQueue s.queue.fetchAddWriteIndex).goto t p .spin).queue.writeIndex.toNat :=
    hw.trans ((Nat.le_succ _).trans (toNat_fetchAdd s hroom).ge)
  have hturns : ((s.setQueue s.queue.fetchAddWriteIndex).goto t p .spin).turns < s.turns := by
    rw [System.turns, System.turns, if_neg (Nat.not_lt.2 hindex), if_neg (Nat.not_lt.2 hw)]
    exact Nat.lt_of_succ_le (Nat.le_of_eq hv)
  exact left_lt_of_turns (Nat.add_right_cancel hu) rfl hturns

/-- A push sees that the index has been reset. -/
theorem left_retry_lt (ht : s.producers t = .pushing p .spin)
    (hw : s.queue.writeIndex.toNat < Buffer.size) : (s.goto t p .claim).left < s.left := by
  have hu := total_update s t (.pushing p .claim) Pc.left
  have hv := total_update s t (.pushing p .claim) Pc.spinning
  rw [ht] at hu hv
  simp only [weight_pushing, Pc.left, Pc.spinning] at hu hv
  have hindex : (s.goto t p .claim).queue.writeIndex.toNat < Buffer.size := hw
  have hturns : (s.goto t p .claim).turns < s.turns := by
    rw [System.turns, System.turns, if_pos hindex, if_pos hw]
    exact Nat.lt_of_succ_le (Nat.le_of_eq hv)
  exact left_lt_of_turns (Nat.add_right_cancel hu) rfl hturns

omit [Fintype T] in
/-- An operation of the consumer that is no wait brings `tryPop` nearer to its end. -/
theorem consumer_left_lt (hs : Step s .consume s') :
    s' = s ∨ s'.consumer.left < s.consumer.left ∧ s'.producers = s.producers := by
  cases hs with
  | wait hc => exact .inl rfl
  | move b c hc => exact .inr (consumer_left_advance_lt (s.afterMove b c) hc rfl)
  | lockFront hc | front hc | noFront hc | unlockFront b hc | loadWritten b hc | loadEmpty b hc
  | lockPop hc | pop b rest hc | unlockPop hc =>
    exact .inr ⟨by rw [hc]; simp [System.await, System.afterPop, Consumer.left], rfl⟩

/-- An operation of a push that is no wait brings the pushes nearer to their ends. -/
theorem produce_left_lt (hroom : NoWrap s (.produce t)) (hs : Step s (.produce t) s') :
    s' = s ∨ s'.left < s.left := by
  cases hs with
  | spin => exact .inl rfl
  | claim _ p ht hw => exact .inr (left_goto_lt (s.afterClaim p) ht rfl rfl (Nat.lt_succ_self _))
  | discard _ p ht hw => exact .inr (left_discard_lt ht hw (hroom t p rfl ht))
  | retry _ p ht hw => exact .inr (left_retry_lt ht hw)
  | load _ p w b ht => exact .inr (left_goto_lt s ht rfl rfl (Nat.lt_succ_self _))
  | construct _ p b w ht =>
    exact .inr (left_goto_lt (s.afterConstruct p b w) ht rfl rfl (Nat.lt_succ_self _))
  | resetIndex _ p ht =>
    exact .inr (left_goto_lt s.afterReset ht rfl rfl (Nat.lt_succ_self _))
  | publish _ p b w ht | countLast _ p b ht | lock _ p ht | alloc _ p ht
  | setWriteBuffer _ p next ht | enqueue _ p next ht =>
    exact .inr (left_goto_lt (s.setQueue _) ht rfl rfl (Nat.lt_succ_self _))
  | count _ p b ht | unlock _ p ht => exact .inr (left_leave_lt (s.setQueue _) ht rfl rfl)

theorem less {l : Label T α} (hroom : NoWrap s l) (hl : l.InProgress) (hs : Step s l s') :
    s' = s ∨ s'.left < s.left := by
  cases l with
  | produce t => exact produce_left_lt hroom hs
  | consume =>
    refine (consumer_left_lt hs).imp_right fun ⟨hlt, hproducers⟩ => left_lt ?_
    rw [System.total, hproducers]
    exact Nat.add_lt_add_left hlt _
  | push | badAlloc | tryPop => exact hl.elim

end Less

/-! ## Somebody can go on -/

section Progress

variable [DecidableEq T] {s : System T α} {t : T} {p : Push T α} {pc : Pc}

/-- Some call that is in progress has an operation that is no wait. -/
def System.GoesOn (s : System T α) : Prop :=
  ∃ l s', l.InProgress ∧ s.step l = some s' ∧ s' ≠ s

omit [DecidableEq T] in
theorem ne_of_producer {s' : System T α} (h : s'.producers t ≠ s.producers t) : s' ≠ s := by
  rintro rfl
  exact h rfl

variable [Fintype T]

omit [DecidableEq T] in
/-- Past the end of the buffer some push does not spin. -/
theorem exists_not_spinning {es : List (SwitchEvent T α)} (hsw : Switched s es) (h : Switching s)
    (hw : Buffer.size ≤ s.queue.writeIndex.toNat) :
    ∃ t p pc, s.producers t = .pushing p pc ∧ pc ≠ .spin := by
  obtain ⟨t, ⟨p, b, -, ⟨w, -, ht | ht | ht⟩ | ht⟩ | ⟨p, pc, ht, hpc, -⟩⟩ :=
    hsw.exists_switching h hw
  · exact ⟨t, p, _, ht, by simp⟩
  · exact ⟨t, p, _, ht, by simp⟩
  · exact ⟨t, p, _, ht, by simp⟩
  · exact ⟨t, p, _, ht, by simp⟩
  · refine ⟨t, p, pc, ht, ?_⟩
    rintro rfl
    cases hpc

/-- A push outside the two waits goes on. -/
theorem goesOn_of_pushing (h : Switching s) (ht : s.producers t = .pushing p pc)
    (hspin : pc = .spin → s.queue.writeIndex.toNat < Buffer.size)
    (hlock : pc = .lock → s.queue.flag = false) : s.GoesOn := by
  have hsome := produce_isSome (t := t) (p := p) h pc
  obtain ⟨s', hs⟩ := Option.isSome_iff_exists.1 hsome
  have hstep : s.step (.produce t) = some s' := by rw [System.step, ht]; exact hs
  refine ⟨.produce t, s', trivial, hstep, ne_of_producer (t := t) ?_⟩
  rw [ht]
  cases pc with
  | claim | count b =>
    simp only [System.produce] at hs
    split at hs <;> cases hs <;> simp [System.goto, System.leave]
  | spin =>
    simp only [System.produce, if_neg (Nat.not_le.2 (hspin rfl))] at hs
    cases hs
    simp [System.goto]
  | lock =>
    simp only [System.produce, hlock rfl] at hs
    cases hs
    simp [System.goto]
  | load w =>
    obtain ⟨b, -, rfl⟩ := Option.map_eq_some_iff.1 hs
    simp [System.goto]
  | _ =>
    cases hs
    simp [System.goto, System.leave]

omit [DecidableEq T] in
/-- The consumer goes on unless it waits for the lock. -/
theorem exists_consume (h : Protocol s) (hc : ∀ r, s.consumer ≠ .outside r)
    (hlock : s.consumer = .lockFront ∨ s.consumer = .lockPop → s.queue.flag = false) :
    ∃ s', s.consume = some s' ∧ s' ≠ s := by
  obtain ⟨s', hs⟩ := Option.isSome_iff_exists.1 (consume_isSome h hc)
  refine ⟨s', hs, fun heq => ?_⟩
  have hstays : s.consume.map System.consumer = some s.consumer := by
    rw [hs, heq]
    rfl
  cases hcase : s.consumer with
  | outside r => exact absurd hcase (hc r)
  | lockFront => simp [System.consume, hcase, hlock (.inl hcase), System.await] at hstays
  | lockPop => simp [System.consume, hcase, hlock (.inr hcase), System.await] at hstays
  | unlockFront front => cases front <;> simp [System.consume, hcase, System.await] at hstays
  | load b =>
    simp only [System.consume, hcase] at hstays
    split at hstays <;> simp [System.await] at hstays
  | move b =>
    obtain ⟨c, hcell⟩ := exists_cell h hcase
    simp only [System.consume, hcase, hcell, Option.map_some, System.advance] at hstays
    split at hstays <;> simp [System.await] at hstays
  | pop =>
    obtain ⟨b, rest, hb⟩ := List.exists_cons_of_ne_nil (buffers_ne_nil h hcase)
    simp [System.consume, hcase, hb, System.afterPop] at hstays
  | _ => simp [System.consume, hcase, System.await] at hstays

theorem goesOn_of_consumer (h : Protocol s) (hc : ∀ r, s.consumer ≠ .outside r)
    (hlock : s.consumer = .lockFront ∨ s.consumer = .lockPop → s.queue.flag = false) :
    s.GoesOn := by
  obtain ⟨s', hs, hne⟩ := exists_consume h hc hlock
  exact ⟨.consume, s', trivial, hs, hne⟩

/-- The holder of the lock goes on. -/
theorem goesOn_of_flag (h : Protocol s) (hx : Excluded s) (hflag : s.queue.flag = true) :
    s.GoesOn := by
  obtain ⟨who, hwho⟩ := (hx.flag_iff ()).1 hflag
  cases who with
  | none =>
    have hholds : s.consumer.holds = some () := hwho
    refine goesOn_of_consumer h (fun r hc => ?_) ?_
    · rw [hc] at hholds
      cases hholds
    · rintro (hc | hc) <;> rw [hc] at hholds <;> cases hholds
  | some t =>
    have hholds : (s.producers t).holds = some () := hwho
    cases ht : s.producers t with
    | idle =>
      rw [ht] at hholds
      cases hholds
    | pushing p pc =>
      rw [ht] at hholds
      refine goesOn_of_pushing h.switching ht ?_ ?_ <;> rintro rfl <;> cases hholds

/-- A call that does not wait for the reset of the index goes on, or the holder of the lock does. -/
theorem goesOn_of_ne_spin (h : Protocol s) (hx : Excluded s) (ht : s.producers t = .pushing p pc)
    (hspin : pc ≠ .spin) : s.GoesOn := by
  cases hflag : s.queue.flag with
  | true => exact goesOn_of_flag h hx hflag
  | false => exact goesOn_of_pushing h.switching ht (fun hpc => absurd hpc hspin) fun _ => hflag

/-- While a call is in flight, one goes on. -/
theorem goesOn (h : Protocol s) (hx : Excluded s) {es : List (SwitchEvent T α)}
    (hsw : Switched s es) (hflight : ¬ s.Quiet) : s.GoesOn := by
  by_cases hquiet : s.NoPushInFlight
  · have hc : ∀ r, s.consumer ≠ .outside r := fun r hc => hflight ⟨hquiet, r, hc⟩
    cases hflag : s.queue.flag with
    | true => exact goesOn_of_flag h hx hflag
    | false => exact goesOn_of_consumer h hc fun _ => hflag
  · obtain ⟨t, ht⟩ := not_forall.1 hquiet
    cases hpc : s.producers t with
    | idle => exact absurd hpc ht
    | pushing p pc =>
      by_cases hspin : pc = .spin
      · subst hspin
        rcases Nat.lt_or_ge s.queue.writeIndex.toNat Buffer.size with hw | hw
        · exact goesOn_of_pushing h.switching hpc (fun _ => hw) (by simp)
        · obtain ⟨t', p', pc', ht', hspin⟩ := exists_not_spinning hsw h.switching hw
          exact goesOn_of_ne_spin h hx ht' hspin
      · exact goesOn_of_ne_spin h hx hpc hspin

end Progress

section Runs

variable [DecidableEq T] {s s' : System T α}

/-- A call in progress is no new push. -/
theorem begun_of_inProgress
    (h : (machine T α).Reaches (fun _ => Label.InProgress) s s') : s'.begun = s.begun := by
  induction h with
  | refl => rfl
  | @tail s₁ s₂ l _ hl hs ih =>
    have hstep : s₂.begun = s₁.begun := by
      cases Step.of_step hs with
      | begin t a ht => exact hl.elim
      | move b c hc =>
        unfold System.advance
        split <;> rfl
      | _ => rfl
    exact hstep.trans ih

theorem allocates_of_inProgress (h : (machine T α).Reaches (fun _ => Label.InProgress) s s') :
    (machine T α).Reaches Allocates s s' := by
  refine h.mono fun _ l hl t => ?_
  rintro rfl
  exact hl

variable [Fintype T]

theorem unfailing_of_allocates (hcard : Fintype.card T + Buffer.size < 2 ^ 32)
    (h : (machine T α).Reachable Allocates s) : (machine T α).Reachable Unfailing s := by
  induction h with
  | refl => exact .refl
  | tail l h hl hs ih =>
    exact .tail l ih ⟨(Protocol.of_card hcard h).switching.noWrap hcard l, hl⟩ hs

theorem exists_quiet_of_fair (hcard : Fintype.card T + Buffer.size < 2 ^ 32)
    (h : (machine T α).Reachable Allocates s) {σ : ℕ → Label T α}
    (hfair : Machine.Fair σ Label.InProgress) (hcalls : ∀ n, (σ n).InProgress) :
    ∃ n, ((machine T α).run s σ n).Quiet := by
  refine Machine.Fair.exists_done (fun _ => Label.InProgress) System.left System.Quiet
    (fun t l u hr hl hs => ?_) (fun t hr hflight => ?_) hfair hcalls
  · have hp := Protocol.of_card hcard (h.trans (allocates_of_inProgress hr))
    exact less (hp.switching.noWrap hcard l) hl (Step.of_step hs)
  · have ht := h.trans (allocates_of_inProgress hr)
    obtain ⟨es, hes⟩ := ht.record switchEvents
    obtain ⟨hp, hsw⟩ := Switched.of_reachable
      (fun _ l hp hl => ⟨hp.switching.noWrap hcard l, hl⟩) hes
    exact goesOn hp (Excluded.of_reachable ht) hsw hflight

end Runs

/-- The calls in flight return: in every state reached while allocation succeeds, and under every
schedule of the calls in progress that gives each thread and the consumer its turn again and again,
there is a time at which no call is in flight, each push has its line in the queue, and indices,
buffers and counters are those that the numbers of pushes and pops give. -/
theorem pushes_return [Fintype T] [DecidableEq T]
    (hcard : Fintype.card T + Buffer.size < 2 ^ 32) {s : System T α}
    (h : (machine T α).Reachable Allocates s) {σ : ℕ → Label T α}
    (hfair : Machine.Fair σ Label.InProgress) (hcalls : ∀ n, (σ n).InProgress) :
    ∃ n, ((machine T α).run s σ n).Quiet ∧ ((machine T α).run s σ n).begun = s.begun ∧
      (∀ p ∈ s.begun, p ∈ ((machine T α).run s σ n).claims) ∧
      ((machine T α).run s σ n).AtRest := by
  obtain ⟨n, hquiet⟩ := exists_quiet_of_fair hcard h hfair hcalls
  have hr : (machine T α).Reaches (fun _ => Label.InProgress) s ((machine T α).run s σ n) :=
    Machine.run_reaches hcalls n
  have hreach := h.trans (allocates_of_inProgress hr)
  have hbegun := begun_of_inProgress hr
  refine ⟨n, hquiet, hbegun, fun p hb => ?_,
    atRest_of_reachable (unfailing_of_allocates hcard hreach) hquiet⟩
  apply ((Protocol.of_card hcard hreach).history.accounted p (hbegun ▸ hb)).resolve_right
  rintro ⟨pc, ht, -⟩
  rw [hquiet.1] at ht
  cases ht

/-- One producer and the consumer take turns. -/
def inTurn (n : ℕ) : Label Unit ℕ := if n % 2 = 0 then .produce () else .consume

theorem fair_inTurn : Machine.Fair inTurn Label.InProgress := by
  refine .of_periodic Nat.two_pos (fun n => by simp [inTurn]) fun l hl => ?_
  cases l with
  | produce t => exact ⟨0, rfl⟩
  | consume => exact ⟨1, rfl⟩
  | push | badAlloc | tryPop => exact hl.elim

/-- A push and a `tryPop` that have just begun. -/
theorem pushes_return_two : ∃ (s : System Unit ℕ) (n : ℕ), ¬ s.Quiet ∧
    ((machine Unit ℕ).run s inTurn n).Quiet ∧
      ∃ p ∈ ((machine Unit ℕ).run s inTurn n).claims, p.line = 7 := by
  obtain ⟨s, hs, hfin⟩ := Option.map_eq_some_iff.1 (show
    ((machine Unit ℕ).exec .init [.push () 7, .tryPop]).map (fun s => (s.begun, s.producers ())) =
      some ([⟨(), 0, 7⟩], .pushing ⟨(), 0, 7⟩ .claim) from rfl)
  obtain ⟨hbegun, hproducer⟩ := Prod.mk.inj hfin
  have h : (machine Unit ℕ).Reachable Allocates s :=
    .of_exec _ (fun l hl _ t => by rintro rfl; simp at hl) hs
  obtain ⟨n, hquiet, -, hclaims, -⟩ := pushes_return (by decide) h fair_inTurn fun n => by
    unfold inTurn
    split <;> trivial
  refine ⟨s, n, fun hq => ?_, hquiet, ⟨(), 0, 7⟩, hclaims _ (by simp [hbegun]), rfl⟩
  have hidle := hq.1 ()
  rw [hproducer] at hidle
  cases hidle

end QueueBuffer

end ZephyrLog
