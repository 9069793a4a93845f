import ZephyrLog.AsyncLogger.Safe.Model
import ZephyrLog.AsyncLogger.Termination
import ZephyrLog.QueueBuffer.Completion
import ZephyrLog.QueueBuffer.Fifo

/-!
# Graceful shutdown of the Safe logger

The buffer queue fulfils the contract of the logger: with no push in flight `tryPop` fails only when
every line has been popped.  So the destructor returns, and when the worker has ended, the lines of
all calls of `add` are written in the order of the queue.
-/

namespace ZephyrLog

namespace QueueBuffer

variable {T α : Type} [Fintype T] {s s' : System T α}

/-- A slot found empty with no push in flight: every line has been popped. -/
theorem Protocol.drained_of_empty (h : Protocol s) (hquiet : s.NoPushInFlight) {b : ℕ}
    (hc : s.consumer = .load b) (hw : ¬ (s.queue.heap b).isWritten s.queue.readIndex.toNat) :
    s.popped.length = s.claims.length := by
  have hat := h.reading.atConsumer
  have hlen := h.reading.popped_length
  rw [hc] at hat hlen
  refine Nat.le_antisymm h.reading.popped_length_le (Nat.le_of_not_lt fun hlt => hw ?_)
  simp only [Consumer.finishing, Nat.add_zero] at hlen
  apply h.written_of_quiet hquiet h.reading.readIndex_lt
  rwa [hat.2, ← hlen]

/-- When no buffer is left, every line has been popped. -/
theorem Protocol.drained_of_noBuffer (h : Protocol s) (hb : s.queue.buffers = []) :
    s.popped.length = s.claims.length := by
  obtain ⟨e, he, hbuffers⟩ := Protocol.enqueued h.switching
  have hreleased : s.released.length = e := by
    rw [hb, List.append_nil] at hbuffers
    rw [hbuffers, List.length_range]
  have hlen := h.reading.popped_length
  have hle := h.reading.popped_length_le
  have hcl := h.switching.claims_length
  have hsz := claimed_le_size s
  have hmul := Nat.mul_le_mul_right Buffer.size (show s.switches + 1 ≤ s.released.length by omega)
  rw [Nat.succ_mul] at hmul
  unfold position at hlen
  omega

omit [Fintype T] in
/-- With no push in flight nobody but the consumer can hold the lock. -/
theorem flag_of_quiet (hx : Excluded s) (hquiet : s.NoPushInFlight)
    (hc : s.consumer.holds = none) : s.queue.flag = false := by
  refine Bool.eq_false_iff.2 fun hflag => ?_
  obtain ⟨who, hwho⟩ := (hx.flag_iff ()).1 hflag
  cases who with
  | none => cases hc.symm.trans hwho
  | some t =>
    have hholds : (s.producers t).holds = some () := hwho
    rw [hquiet t] at hholds
    cases hholds

/-- The line that `tryPop` has moved out and is to return, or has just returned. -/
def System.inHand (s : System T α) : List (Cell (Push T α)) :=
  match s.consumer with
  | .lockPop | .pop | .unlockPop | .outside (some true) => [s.logline]
  | _ => []

/-- `tryPop` is to return false, or has just returned it. -/
def Consumer.Failed (c : Consumer) : Prop := c = .unlockFront none ∨ c = .outside (some false)

instance [DecidableEq T] : ObservedBuffer (System T α) T α (Push T α) where
  entries := System.claims
  popped := System.popped
  inHand := System.inHand
  Failed s := s.consumer.Failed
  Drained s := s.popped.length = s.claims.length
  left s := s.consumer.left

section Contract

variable [DecidableEq T]

omit [Fintype T] in
/-- A step of a producer leaves the consumer and its variable alone. -/
theorem consumer_of_produce {l : Label T α} (hs : Step s l s') (hl : l ≠ .tryPop)
    (hl' : l ≠ .consume) :
    s'.consumer = s.consumer ∧ s'.popped = s.popped ∧ s'.logline = s.logline := by
  cases hs <;> first | exact ⟨rfl, rfl, rfl⟩ | exact absurd rfl hl | exact absurd rfl hl'

omit [Fintype T] in
/-- A step of the consumer leaves the producers alone: it neither begins a push nor claims an
index. -/
theorem producers_of_consume {l : Label T α} (hs : Step s l s') (hl : l = .tryPop ∨ l = .consume) :
    s'.producers = s.producers ∧ s'.claims = s.claims ∧ s'.begun = s.begun := by
  cases hs with
  | move b c hc hcell =>
    unfold System.advance
    split <;> exact ⟨rfl, rfl, rfl⟩
  | _ => first | exact ⟨rfl, rfl, rfl⟩ | simp at hl

omit [Fintype T] [DecidableEq T] in
/-- Outside of `tryPop` the consumer keeps what it has returned. -/
theorem result_eq_some {r : Option Bool} (h : s.consumer.result = some r) :
    s.consumer = .outside r := by
  cases hc : s.consumer with
  | outside r' =>
    rw [hc] at h
    exact congrArg _ (Option.some.inj h)
  | _ =>
    rw [hc] at h
    cases h

omit [Fintype T] in
/-- A line is popped when it comes into the consumer's hand. -/
theorem popped_consume (hs : Step s .consume s') {w : List (Cell (Push T α))}
    (hpop : s.popped = w ++ s.inHand) : s'.popped = w ++ s'.inHand := by
  cases hs with
  | wait hc => exact hpop
  | lockFront hc | front hc | noFront hc | unlockFront b hc | loadWritten b hc | loadEmpty b hc
  | lockPop hc | pop b rest hc hb | unlockPop hc =>
    simp only [System.inHand, hc] at hpop
    exact hpop
  | move b c hc hcell =>
    simp only [System.inHand, hc, List.append_nil] at hpop
    have hpop' : (s.afterMove b c).popped = w ++ [c] := congrArg (· ++ [c]) hpop
    unfold System.advance
    split <;> exact hpop'

omit [Fintype T] in
/-- `tryPop` returns true with a line in hand, or fails without one. -/
theorem result_consume (hs : Step s .consume s') {r : Option Bool}
    (hr : s'.consumer.result = some r) :
    r = some true ∨ r = some false ∧ s'.inHand = [] ∧ s'.consumer.Failed := by
  cases hs with
  | wait hc => rcases hc with hc | hc <;> rw [hc] at hr <;> cases hr
  | noFront hc | loadEmpty b hc =>
    cases hr
    exact .inr ⟨rfl, rfl, .inr rfl⟩
  | unlockPop hc =>
    cases hr
    exact .inl rfl
  | move b c hc hcell =>
    unfold System.advance at hr
    split at hr
    · cases hr
    · cases hr
      exact .inl rfl
  | _ => cases hr

/-- With no push in flight `tryPop` fails only when every line has been popped. -/
theorem drained_consume (hp : Protocol s) (hquiet : s.NoPushInFlight)
    (hdrained : s.consumer.Failed → s.popped.length = s.claims.length) (hs : Step s .consume s')
    (hfailed : s'.consumer.Failed) : s'.popped.length = s'.claims.length := by
  cases hs with
  | wait hc => exact hdrained hfailed
  | front hc =>
    rcases hfailed with hnone | hout
    · exact hp.drained_of_noBuffer (List.head?_eq_none_iff.1 (Consumer.unlockFront.inj hnone))
    · cases hout
  | noFront hc => exact hdrained (.inl hc)
  | loadEmpty b hc hwritten => exact hp.drained_of_empty hquiet hc hwritten
  | move b c hc hcell =>
    unfold System.advance at hfailed
    split at hfailed <;> rcases hfailed with hout | hout <;> cases hout
  | _ => rcases hfailed with hout | hout <;> cases hout

/-- The buffer queue fulfils the contract of the logger. -/
theorem lawful (hcard : Fintype.card T + Buffer.size < 2 ^ 32) :
    BufferBase.Lawful (System.init : System T α) := by
  have hrun {b : System T α} (h : (BufferBase.machine .init).Reachable Machine.anyStep b) :
      (machine T α).Reachable Machine.anyStep b :=
    h.project id fun s op s' _ hs => .single (.ofOp op) trivial hs
  have hprotocol {b : System T α} (h : (BufferBase.machine .init).Reachable Machine.anyStep b) :
      Protocol b := .of_card hcard (hrun h)
  exact
    { result_init := ⟨_, rfl⟩
      popped_init := rfl
      of_producer := by
        intro b b' op hop hs
        obtain ⟨hc, hpopped, hline⟩ := consumer_of_produce (Step.of_step hs)
          (by cases op <;> first | exact hop.elim | simp [Label.ofOp])
          (by cases op <;> first | exact hop.elim | simp [Label.ofOp])
        refine ⟨congrArg Consumer.result hc, hpopped, ?_⟩
        show b'.inHand = b.inHand
        simp only [System.inHand, hc, hline]
      of_consumer := by
        intro b b' op hop hs
        obtain ⟨hproducers, hclaims, -⟩ := producers_of_consume (Step.of_step hs)
          (by cases op <;> first | exact (hop trivial).elim | simp [Label.ofOp])
        exact ⟨hclaims, fun hquiet t => (congrFun hproducers t).trans (hquiet t)⟩
      produce_of_quiet := by
        intro b t hquiet
        show b.step (.produce t) = none
        simp only [System.step, hquiet t]
      badAlloc_of_quiet := by
        intro b t hquiet
        show b.step (.badAlloc t) = none
        simp only [System.step, hquiet t]
      inHand_of_result := by
        intro b hresult
        have hc := result_eq_some hresult
        show b.inHand = [b.logline]
        simp only [System.inHand, hc]
      exists_tryPop := by
        intro b r hresult
        have hc := result_eq_some hresult
        have hsome : (b.step .tryPop).isSome := by simp [System.step, hc]
        exact Option.isSome_iff_exists.1 hsome
      tryPop := by
        intro b b' hs
        cases Step.of_step (s := b) (l := .tryPop) hs with
        | tryPopFront | tryPop =>
          refine ⟨rfl, rfl, rfl, ?_, ?_⟩
          · rintro (hout | hout) <;> cases hout
          · show Consumer.left _ ≤ 12
            simp [System.await, Consumer.left]
      popped_consume := fun hs hpop => popped_consume (Step.of_step hs) hpop
      result_consume := fun hs hr => result_consume (Step.of_step hs) hr
      left_consume := fun hs => (consumer_left_lt (Step.of_step hs)).imp id And.left
      exists_consume := by
        intro b hr hquiet hresult
        refine QueueBuffer.exists_consume (hprotocol hr) (fun r hc => ?_) fun hc => ?_
        · cases hresult.symm.trans (congrArg Consumer.result hc)
        · exact flag_of_quiet (.of_reachable (hrun hr)) hquiet
            (by rcases hc with hc | hc <;> rw [hc] <;> rfl)
      drained := fun hr hquiet hdrained hs hfailed =>
        drained_consume (hprotocol hr) hquiet hdrained (Step.of_step hs) hfailed
      popped_subset := by
        intro b hr c hc
        have hpopped := (hprotocol hr).reading.popped
        change c ∈ b.popped at hc
        rw [hpopped] at hc
        obtain ⟨p, hp, rfl⟩ := List.mem_map.1 hc
        exact ⟨p, List.mem_of_mem_take hp, rfl⟩
      popped_length_le := fun hr => (hprotocol hr).reading.popped_length_le }

end Contract

end QueueBuffer

namespace AsyncLogger

namespace Safe

open QueueBuffer (Push)

variable {T α : Type}

section Runs

variable [DecidableEq T] {s s' : System T α} {guard : System T α → Label T α → Prop}

/-- A run of the logger is a run of its queue. -/
theorem queue_reaches (h : (machine T α).Reaches guard s s') :
    (QueueBuffer.machine T α).Reaches Machine.anyStep s.buffer s'.buffer :=
  (buffer_reaches h).project id fun _ op _ _ hs => .single (.ofOp op) trivial hs

variable [Fintype T]

theorem protocol (hcard : Fintype.card T + Buffer.size < 2 ^ 32)
    (h : (machine T α).Reachable guard s) : QueueBuffer.Protocol s.buffer :=
  .of_card hcard (queue_reaches h)

theorem working (hcard : Fintype.card T + Buffer.size < 2 ^ 32)
    (h : (machine T α).Reachable AddsReturned s) : Working s :=
  .of_reachable (QueueBuffer.lawful hcard) h

/-- The lines written are the first ones claimed. -/
theorem written_eq_take (hcard : Fintype.card T + Buffer.size < 2 ^ 32)
    (h : (machine T α).Reachable AddsReturned s) :
    s.written = (s.buffer.claims.take s.written.length).map Cell.line := by
  have hprefix : s.written <+: s.buffer.popped := (working hcard h).written_prefix_popped
  rw [(protocol hcard h).reading.popped] at hprefix
  have hlen := hprefix.length_le
  rw [List.length_map, List.length_take] at hlen
  have htake := List.prefix_iff_eq_take.1 hprefix
  rwa [← List.map_take, List.take_take, min_eq_left (by omega)] at htake

/-- When the worker has ended, the lines written are those of the calls of `add`, in the order of
their claims. -/
theorem written_of_ended (hcard : Fintype.card T + Buffer.size < 2 ^ 32)
    (h : (machine T α).Reachable AddsReturned s) (hend : s.worker = .ended) :
    s.buffer.popped = s.written ∧ s.written = s.buffer.claims.map Cell.line ∧
      ∀ p, p ∈ s.buffer.claims ↔ p ∈ s.buffer.begun := by
  have hp := protocol hcard h
  obtain ⟨hquiet, -, hpop, hlen⟩ := (working hcard h).at_end hend
  change s.buffer.popped = s.written at hpop
  change s.buffer.popped.length = s.buffer.claims.length at hlen
  refine ⟨hpop, ?_, fun p => ⟨hp.history.begun p, fun hb => ?_⟩⟩
  · rw [← hpop, hp.reading.popped, hlen, List.take_length]
  · apply (hp.history.accounted p hb).resolve_right
    rintro ⟨pc, ht, -⟩
    rw [hquiet] at ht
    cases ht

/-- Once the destructor has begun, no call of `add` begins. -/
theorem begun_of_destroying (hcard : Fintype.card T + Buffer.size < 2 ^ 32)
    (h : (machine T α).Reachable AddsReturned s) (ho : s.owner.Destroying)
    (hr : (machine T α).Reaches AddsReturned s s') : s'.buffer.begun = s.buffer.begun := by
  have hconsumer := (destroying_of_reaches (QueueBuffer.lawful hcard) h ho hr).2.2
  generalize s'.buffer = b' at hconsumer
  induction hconsumer with
  | refl => rfl
  | tail op _ hop hs ih =>
    refine (QueueBuffer.producers_of_consume (QueueBuffer.Step.of_step hs) ?_).2.2.trans ih
    cases op <;> first | exact (hop trivial).elim | simp [QueueBuffer.Label.ofOp]

end Runs

/-- `p` is written before `q`. -/
def System.WrittenBefore (s : System T α) (p q : Push T α) : Prop :=
  ∃ i j : ℕ, i < j ∧ s.written[i]? = some (.line p) ∧ s.written[j]? = some (.line q)

/-- Graceful shutdown of the Safe logger: if every `add` returns before the destructor begins, the
worker ends with the lines of exactly the calls of `add` written, each once, and lines added one
after another in that order. -/
theorem shutdown_writes_all [Fintype T] [DecidableEq T]
    (hcard : Fintype.card T + Buffer.size < 2 ^ 32) {s : System T α}
    (h : (machine T α).Reachable AddsReturned s) (hend : s.worker = .ended) :
    (∀ c, c ∈ s.written ↔ ∃ p ∈ s.buffer.begun, c = .line p) ∧ s.written.Nodup ∧
      ∀ s₀, (machine T α).Reachable AddsReturned s₀ →
        (machine T α).Reaches AddsReturned s₀ s → ∀ p q, s₀.buffer.Returned p →
          q ∉ s₀.buffer.begun → q ∈ s.buffer.begun → System.WrittenBefore s p q := by
  have hp := protocol hcard h
  obtain ⟨hpop, hwritten, hclaims⟩ := written_of_ended hcard h hend
  refine ⟨fun c => ?_, ?_, ?_⟩
  · simp only [hwritten, List.mem_map, hclaims, eq_comm (a := c)]
  · rw [hwritten]
    exact hp.history.nodup.map Cell.line_injective
  · intro s₀ h₀ hreach p q hret hq hqs
    have hqp : .line q ∈ s.buffer.popped := by
      rw [hpop, hwritten]
      exact List.mem_map_of_mem ((hclaims q).2 hqs)
    have hbefore := QueueBuffer.poppedBefore_of_returned (protocol hcard h₀) hp
      (queue_reaches hreach) hret hq hqp
    unfold QueueBuffer.System.PoppedBefore at hbefore
    rwa [hpop] at hbefore

/-- Two lines, whose worker goes straight from `INIT` to `SHUTDOWN`. -/
theorem shutdown_writes_all_two : ∃ s : System Bool ℕ, s.worker = .ended ∧ s.written.Nodup ∧
    System.WrittenBefore s ⟨false, 0, 7⟩ ⟨true, 1, 8⟩ := by
  obtain ⟨s₀, hs₀, hfin₀⟩ := Option.map_eq_some_iff.1 (show
    (((machine Bool ℕ).restrict AddsReturned).exec (.new .init) (adding 5 false 7)).map
      (fun s => (s.buffer.begun, s.buffer.producers false)) =
        some ([⟨false, 0, 7⟩], .idle) from rfl)
  obtain ⟨hbegun₀, hidle⟩ := Prod.mk.inj hfin₀
  obtain ⟨s, hs, hfin⟩ := Option.map_eq_some_iff.1 (show
    (((machine Bool ℕ).restrict AddsReturned).exec (.new .init)
      (adding 5 false 7 ++
        (.own :: adding 5 true 8 ++ .destroy :: .own :: List.replicate 15 .work))).map
        (fun s => (s.worker, s.buffer.begun)) =
      some (.ended, [⟨false, 0, 7⟩, ⟨true, 1, 8⟩]) from rfl)
  obtain ⟨hend, hbegun⟩ := Prod.mk.inj hfin
  rw [Machine.exec_append, hs₀, Option.bind_some] at hs
  have h₀ : (machine Bool ℕ).Reachable AddsReturned s₀ := .of_restrict hs₀
  have hr : (machine Bool ℕ).Reaches AddsReturned s₀ s := .of_restrict hs
  obtain ⟨-, hnodup, hbefore⟩ := shutdown_writes_all (by decide) (h₀.trans hr) hend
  refine ⟨s, hend, hnodup, hbefore s₀ h₀ hr _ _ ⟨by simp [hbegun₀], ?_⟩ ?_ ?_⟩
  · intro pc hp
    cases hidle.symm.trans hp
  · simp [hbegun₀]
  · simp [hbegun]

/-- The destructor of the Safe logger returns with everything written: if every `add` has returned
when it begins, then under every schedule that gives worker and owner their turn again and again the
worker ends and is joined, and the lines written are those of the calls of `add`, each once, in the
order of the queue. -/
theorem destructor_returns [Fintype T] [DecidableEq T]
    (hcard : Fintype.card T + Buffer.size < 2 ^ 32) {s : System T α}
    (h : (machine T α).Reachable AddsReturned s) (ho : s.owner.Destroying) {σ : ℕ → Label T α}
    (hfair : Machine.Fair σ fun l => l = .work ∨ l = .own)
    (hguard : ∀ n, AddsReturned ((machine T α).run s σ n) (σ n)) :
    ∃ n s', (machine T α).run s σ n = s' ∧ s'.owner = .joined ∧ s'.worker = .ended ∧
      s'.written = s'.buffer.claims.map Cell.line ∧ s'.written.Nodup ∧
      ∀ c, c ∈ s'.written ↔ ∃ p ∈ s.buffer.begun, c = .line p := by
  obtain ⟨n, howner, hworker⟩ :=
    exists_joined (QueueBuffer.lawful hcard) h ho hfair hguard
  have hr := Machine.run_reaches hguard n
  have hbegun := begun_of_destroying hcard h ho hr
  obtain ⟨-, hwritten, hclaims⟩ := written_of_ended hcard (h.trans hr) hworker
  refine ⟨n, _, rfl, howner, hworker, hwritten, ?_, fun c => ?_⟩
  · rw [hwritten]
    exact (protocol hcard (h.trans hr)).history.nodup.map Cell.line_injective
  · simp only [hwritten, List.mem_map, hclaims, hbegun, eq_comm (a := c)]

/-- Two lines, and a destructor that begins before the worker has seen `READY`. -/
theorem destructor_returns_two : ∃ (s : System Bool ℕ) (n : ℕ), s.worker = .waitInit ∧
    ((machine Bool ℕ).run s (inTurn Bool ℕ) n).owner = .joined ∧
      .line ⟨false, 0, 7⟩ ∈ ((machine Bool ℕ).run s (inTurn Bool ℕ) n).written ∧
      .line ⟨true, 1, 8⟩ ∈ ((machine Bool ℕ).run s (inTurn Bool ℕ) n).written := by
  obtain ⟨s, hs, hfin⟩ := Option.map_eq_some_iff.1 (show
    (((machine Bool ℕ).restrict AddsReturned).exec (.new .init)
      (adding 5 false 7 ++ .own :: adding 5 true 8 ++ [.destroy])).map
        (fun s => (s.owner, s.worker, s.buffer.begun)) =
        some (.destroying, .waitInit, [⟨false, 0, 7⟩, ⟨true, 1, 8⟩]) from rfl)
  simp only [Prod.mk.injEq] at hfin
  obtain ⟨howner, hworker, hbegun⟩ := hfin
  have h : (machine Bool ℕ).Reachable AddsReturned s := .of_restrict hs
  obtain ⟨n, s', rfl, hjoined, -, -, -, hmem⟩ := destructor_returns (by decide) h
    (by rw [howner]; trivial) (fair_inTurn Bool ℕ) fun n => addsReturned_inTurn _ n
  exact ⟨s, n, hworker, hjoined, (hmem _).2 ⟨_, by simp [hbegun], rfl⟩,
    (hmem _).2 ⟨_, by simp [hbegun], rfl⟩⟩

end Safe

end AsyncLogger

end ZephyrLog
