import ZephyrLog.Lib.Simulation
import ZephyrLog.Lib.TicketQueue
import ZephyrLog.QueueBuffer.Fifo
import ZephyrLog.QueueBuffer.Lifetime

/-!
# The buffer queue is a queue with tickets

A push takes its ticket when `m_writeIndex.fetch_add` gives it an index below `Buffer::size` and
publishes its line when it sets the flag; a `tryPop` succeeds when it moves the line out, and fails
when it finds the flag not set or no buffer.  With `position` as the ticket, every interleaving of
the operations is a run of `TicketQueue`: in particular `tryPop` never fails while the line of the
next claim is published, on whatever side of a switch it lies.
-/

namespace ZephyrLog

namespace QueueBuffer

open TicketQueue (Event)

variable {T α : Type}

/-- What a step does to the queue with tickets. -/
def event (s : System T α) : Label T α → Option (Event (Push T α))
  | .produce t => match s.producers t with
    | .pushing p .claim => if s.queue.writeIndex.toNat < Buffer.size then some (.claim p) else none
    | .pushing _ (.publish b w) => some (.publish (position b w))
    | _ => none
  | .consume => match s.consumer with
    | .front => if s.queue.buffers = [] then some .empty else none
    | .load b => if (s.queue.heap b).isWritten s.queue.readIndex.toNat then none else some .empty
    | .move _ => some .pop
    | _ => none
  | _ => none

/-- The state `q` of the queue with tickets belongs to the state `s`. -/
structure Agrees (s : System T α) (q : TicketQueue (Push T α)) : Prop where
  lines : q.lines = s.claims
  taken : q.taken = s.popped.length
  published : ∀ b i, i < Buffer.size → (q.published (position b i) = true ↔ s.Written b i)

namespace Agrees

variable {s s' : System T α} {q : TicketQueue (Push T α)} {t : T} {p : Push T α}

theorem init : Agrees (System.init : System T α) .init where
  lines := rfl
  taken := rfl
  published := fun b i _ => iff_of_false (by simp [TicketQueue.init]) (not_written_init b i)

theorem congr (h : Agrees s q) (hclaims : s'.claims = s.claims)
    (hpopped : s'.popped.length = s.popped.length)
    (hwritten : ∀ b i, i < Buffer.size → (s'.Written b i ↔ s.Written b i)) : Agrees s' q where
  lines := by rw [hclaims]; exact h.lines
  taken := by rw [hpopped]; exact h.taken
  published := fun b i hi => (h.published b i hi).trans (hwritten b i hi).symm

/-- An operation that touches neither the flags nor the history. -/
theorem of_heap (h : Agrees s q) (hclaims : s'.claims = s.claims) (hpopped : s'.popped = s.popped)
    (hheap : s'.queue.heap = s.queue.heap) : Agrees s' q :=
  h.congr hclaims (by rw [hpopped]) fun b i _ => by
    rw [System.Written, hheap]
    rfl

theorem claim (h : Agrees s q) (p : Push T α) :
    Agrees (s.afterClaim p) { q with lines := q.lines ++ [p] } where
  lines := by rw [h.lines]; rfl
  taken := h.taken
  published := h.published

theorem advance (h : Agrees s q) : Agrees s.advance q := by
  unfold System.advance
  split <;> exact h.of_heap rfl rfl rfl

/-- A flag is set. -/
theorem publish (h : Agrees s q) {b w : ℕ} (hw : w < Buffer.size) :
    Agrees (s.setQueue (s.queue.onBuffer b (·.publish w)))
      { q with published := Function.update q.published (position b w) true } where
  lines := h.lines
  taken := h.taken
  published := by
    intro a i hi
    rw [written_publish, ← h.published a i hi]
    by_cases heq : position a i = position b w
    · obtain ⟨rfl, rfl⟩ := position_inj hi hw heq
      simp
    · have hne : ¬ (a = b ∧ i = w) := by
        rintro ⟨rfl, rfl⟩
        exact heq rfl
      simp [heq, hne]

/-- A line is moved out. -/
theorem move (h : Agrees s q) (b : ℕ) (c : Cell (Push T α)) :
    Agrees (s.afterMove b c).advance { q with taken := q.taken + 1 } := by
  refine advance ⟨h.lines, ?_, fun a i hi => ?_⟩
  · show q.taken + 1 = (s.popped ++ [c]).length
    rw [h.taken, List.length_append, List.length_singleton]
  · rw [written_afterMove]
    exact h.published a i hi

variable [Fintype T]

/-- The ticket of a push that is to set its flag. -/
theorem pending (h : Agrees s q) (hp : Protocol s) {b w : ℕ}
    (ht : s.producers t = .pushing p (.publish b w)) :
    w < Buffer.size ∧ position b w < q.lines.length ∧ q.published (position b w) = false := by
  obtain ⟨hb, hw⟩ : b = s.switches ∧ w < Buffer.size := hp.switching.pcs t p _ ht
  obtain ⟨-, hclaim, hnot, -⟩ := hp.slots.pending t p w (some (.line p)) (by rw [ht]; rfl)
  rw [← hb] at hclaim hnot
  refine ⟨hw, ?_, ?_⟩
  · rw [h.lines]
    exact (List.getElem?_eq_some_iff.1 hclaim).1
  · rw [← Bool.not_eq_true, h.published b w hw]
    exact hnot

omit [Fintype T] in
/-- The ticket that the consumer looks for is that of its cursor. -/
theorem next (h : Agrees s q) (hr : Reading s) (hc : s.consumer.finishing = 0) :
    q.published q.taken = true ↔ s.Written s.released.length s.queue.readIndex.toNat := by
  rw [h.taken, hr.popped_length, hc, Nat.add_zero]
  exact h.published _ _ hr.readIndex_lt

/-- Without a buffer there is no line. -/
theorem not_published_of_front (h : Agrees s q) (hp : Protocol s) (hc : s.consumer = .front)
    (hbuffers : s.queue.buffers = []) : ¬ q.published q.taken = true := by
  obtain ⟨e, he, hrange⟩ := Protocol.enqueued hp.switching
  have hlen := congrArg List.length hrange
  rw [hbuffers, List.append_nil, List.length_range] at hlen
  rw [h.next hp.reading (by rw [hc]; rfl), System.Written]
  exact hp.switching.not_isWritten (by omega) _

theorem not_published_of_load (h : Agrees s q) (hp : Protocol s) {b : ℕ}
    (hc : s.consumer = .load b) (hw : ¬ (s.queue.heap b).isWritten s.queue.readIndex.toNat) :
    ¬ q.published q.taken = true := by
  have hat := hp.reading.atConsumer
  rw [hc] at hat
  rw [h.next hp.reading (by rw [hc]; rfl), ← hat.2]
  exact hw

theorem published_of_move (h : Agrees s q) (hp : Protocol s) {b : ℕ} (hc : s.consumer = .move b) :
    q.published q.taken = true := by
  have hat := hp.reading.atConsumer
  rw [hc] at hat
  rw [h.next hp.reading (by rw [hc]; rfl), ← hat.2.1]
  exact hat.2.2

variable [DecidableEq T]

omit [Fintype T] in
/-- A step that leaves everything as it is does nothing to the queue with tickets. -/
theorem event_of_wait (hs : s.step (.produce t) = some s) : event s (.produce t) = none := by
  cases ht : s.producers t with
  | idle => simp [event, ht]
  | pushing p pc =>
    cases pc with
    | claim =>
      by_cases hw : s.queue.writeIndex.toNat < Buffer.size
      · simp only [System.step, ht, System.produce, if_pos hw, Option.some.injEq] at hs
        have hmoved := congrFun (congrArg System.producers hs) t
        rw [producers_goto, ht] at hmoved
        cases hmoved
      · simp only [event, ht, if_neg hw]
    | publish b w =>
      simp only [System.step, ht, System.produce, Option.some.injEq] at hs
      have hmoved := congrFun (congrArg System.producers hs) t
      rw [producers_goto, ht] at hmoved
      cases hmoved
    | _ => simp [event, ht]

/-- Every step is answered by the queue with tickets. -/
theorem step (h : Agrees s q) (hp : Protocol s) {l : Label T α} (hs : s.step l = some s') :
    ∃ q', (TicketQueue.machine (Push T α)).Answers Machine.anyStep q (event s l) q' ∧
      Agrees s' q' := by
  cases Step.of_step hs with
  | claim t p ht hw =>
    refine ⟨{ q with lines := q.lines ++ [p] }, ?_, (h.claim p).of_heap rfl rfl rfl⟩
    simp only [event, ht, if_pos hw]
    exact ⟨trivial, rfl⟩
  | publish t p b w ht =>
    obtain ⟨hw, hlt, hnot⟩ := h.pending hp ht
    refine ⟨{ q with published := Function.update q.published (position b w) true }, ?_,
      (h.publish hw).of_heap rfl rfl rfl⟩
    simp only [event, ht]
    exact ⟨trivial, if_pos ⟨hlt, hnot⟩⟩
  | front hc =>
    refine ⟨q, ?_, h.of_heap rfl rfl rfl⟩
    by_cases hbuffers : s.queue.buffers = []
    · simp only [event, hc, if_pos hbuffers]
      exact ⟨trivial, if_neg (h.not_published_of_front hp hc hbuffers)⟩
    · simp only [event, hc, if_neg hbuffers]
      rfl
  | loadEmpty b hc hw =>
    refine ⟨q, ?_, h.of_heap rfl rfl rfl⟩
    simp only [event, hc, if_neg hw]
    exact ⟨trivial, if_neg (h.not_published_of_load hp hc hw)⟩
  | move b c hc hcell =>
    refine ⟨{ q with taken := q.taken + 1 }, ?_, h.move b c⟩
    simp only [event, hc]
    exact ⟨trivial, if_pos (h.published_of_move hp hc)⟩
  | spin t => exact ⟨q, by rw [event_of_wait hs]; rfl, h⟩
  | wait hc => exact ⟨q, by rcases hc with hc | hc <;> simp [event, hc, Machine.Answers], h⟩
  | begin | badAlloc | tryPopFront | tryPop => exact ⟨q, rfl, h.of_heap rfl rfl rfl⟩
  | discard t p ht hw =>
    refine ⟨q, ?_, h.of_heap rfl rfl rfl⟩
    simp only [event, ht, if_neg (Nat.not_lt.2 hw)]
    rfl
  | alloc t p ht =>
    refine ⟨q, by simp [event, ht, Machine.Answers], h.of_heap rfl rfl ?_⟩
    exact hp.slots.heap_alloc hp.switching ht
  | construct t p b w ht =>
    refine ⟨q, by simp [event, ht, Machine.Answers], h.congr rfl rfl fun a i _ => ?_⟩
    exact written_afterConstruct s p b w a i
  | countLast t p b ht hfull | count t p b ht hfull =>
    refine ⟨q, by simp [event, ht, Machine.Answers], h.congr rfl rfl fun a i hi => ?_⟩
    exact written_countUp s b a hi
  | loadWritten b hc hw =>
    refine ⟨q, ?_, h.of_heap rfl rfl rfl⟩
    simp only [event, hc, if_pos hw]
    rfl
  | pop b rest hc hb =>
    refine ⟨q, by simp [event, hc, Machine.Answers], h.congr rfl rfl fun a i _ => ?_⟩
    exact written_afterPop s b rest a i
  | retry t p ht | load t p w b ht | lock t p ht | setWriteBuffer t p next ht
  | enqueue t p next ht | resetIndex t p ht | unlock t p ht =>
    exact ⟨q, by simp [event, ht, Machine.Answers], h.of_heap rfl rfl rfl⟩
  | lockFront hc | noFront hc | unlockFront b hc | lockPop hc | unlockPop hc =>
    exact ⟨q, by simp [event, hc, Machine.Answers], h.of_heap rfl rfl rfl⟩

/-- With fewer than `2 ^ 32 - Buffer::size` threads the buffer queue refines the queue with
tickets. -/
theorem simulates (hcard : Fintype.card T + Buffer.size < 2 ^ 32) :
    (machine T α).Simulates Machine.anyStep (TicketQueue.machine (Push T α)) Machine.anyStep event
      fun s q => Protocol s ∧ Agrees s q where
  init := ⟨.init, .init⟩
  step := by
    rintro s l s' q ⟨hp, h⟩ - hs
    obtain ⟨q', hq', h'⟩ := h.step hp hs
    exact ⟨q', hq', hp.step (hp.switching.noWrap hcard l) (Step.of_step hs), h'⟩

omit [DecidableEq T] in
/-- With no push in flight every ticket is published. -/
theorem published_of_quiet (h : Agrees s q) (hp : Protocol s) (hquiet : s.NoPushInFlight) (n : ℕ)
    (hn : n < q.lines.length) : q.published n = true := by
  obtain ⟨b, i, hi, rfl⟩ := exists_position n
  rw [h.lines] at hn
  exact (h.published b i hi).2 (hp.written_of_quiet hquiet hi hn)

end Agrees

/-- The buffer queue refines the queue with tickets: in every interleaving, failing allocations
included, the claims, flags, moves and failed looks of the run are a run of the queue with tickets;
its claims are those of the pushes, and as many lines are taken as `tryPop` has returned, in the
order of the tickets; a line is published exactly when its flag is set; and with no push in flight
the queue is found empty exactly when all claimed lines have been returned. -/
theorem refines_ticketQueue [Fintype T] [DecidableEq T]
    (hcard : Fintype.card T + Buffer.size < 2 ^ 32) {s : System T α} {es : List (Event (Push T α))}
    (h : ((machine T α).record fun s l => (event s l).toList).Reachable Machine.anyStep (s, es)) :
    ∃ q, (TicketQueue.machine (Push T α)).exec .init es = some q ∧
      s.claims = TicketQueue.claimed es ∧
      s.popped = ((TicketQueue.claimed es).take (TicketQueue.popped es)).map Cell.line ∧
      s.popped.length = TicketQueue.popped es ∧
      (∀ b i, i < Buffer.size → (q.published (position b i) = true ↔ s.Written b i)) ∧
      (s.NoPushInFlight → ((q.step .empty).isSome ↔ s.popped.length = s.claims.length)) := by
  obtain ⟨q, hexec, -, hp, hq⟩ := (Agrees.simulates hcard).trace h
  obtain ⟨hlines, htaken⟩ := TicketQueue.exec_lines hexec
  have hclaims : s.claims = TicketQueue.claimed es := hq.lines.symm.trans hlines
  have hpopped : s.popped.length = TicketQueue.popped es :=
    hq.taken.symm.trans (htaken.trans (Nat.zero_add _))
  refine ⟨q, hexec, hclaims, ?_, hpopped, hq.published, fun hquiet => ?_⟩
  · rw [← hclaims, ← hpopped]
    exact hp.reading.popped
  · have hvalid := TicketQueue.Valid.init.exec hexec
    rw [hvalid.empty_iff (hq.published_of_quiet hp hquiet), hq.taken, hq.lines]

/-- The second of two claims is published first, so the first of three calls of `tryPop` fails. -/
theorem refines_ticketQueue_two : ∃ (s : System Bool ℕ) (es : List (Event (Push Bool ℕ))),
    es = [.claim ⟨true, 1, 8⟩, .claim ⟨false, 0, 7⟩, .publish 1, .empty, .publish 0, .pop, .pop] ∧
      s.popped = [.line ⟨true, 1, 8⟩, .line ⟨false, 0, 7⟩] ∧
      ∃ q, (TicketQueue.machine (Push Bool ℕ)).exec .init es = some q := by
  obtain ⟨⟨s, es⟩, hs, hfin⟩ := Option.map_eq_some_iff.1 (show
    (((machine Bool ℕ).record fun s l => (event s l).toList).exec (.init, [])
      ([.push false 7, .push true 8, .produce true] ++ List.replicate 5 (.produce false) ++
        [.tryPop] ++ List.replicate 4 .consume ++ List.replicate 4 (.produce true) ++
        [.tryPop] ++ List.replicate 2 .consume ++ [.tryPop] ++ List.replicate 2 .consume)).map
        (fun x => (x.1.popped, x.2)) =
      some ([.line ⟨true, 1, 8⟩, .line ⟨false, 0, 7⟩], [.claim ⟨true, 1, 8⟩, .claim ⟨false, 0, 7⟩,
        .publish 1, .empty, .publish 0, .pop, .pop]) by decide +kernel)
  obtain ⟨hpopped, hes⟩ := Prod.mk.inj hfin
  obtain ⟨q, hq, -⟩ := refines_ticketQueue (by decide) (.of_exec _ (fun _ _ _ => trivial) hs)
  exact ⟨s, es, hes, hpopped, q, hq⟩

end QueueBuffer

end ZephyrLog
