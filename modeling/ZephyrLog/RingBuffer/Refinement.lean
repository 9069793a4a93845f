import ZephyrLog.Lib.TicketQueue
import ZephyrLog.RingBuffer.Atomicity

/-!
# The ring is a queue with tickets while it is not overrun

A `push` takes its ticket with the `fetch_add` and publishes its line with its store; a `tryPop`
takes the line of the next ticket or finds the queue empty.  This holds of the atomic ring as long
as the claims exceed the lines returned by at most the size, and so of the ring with its locks,
which refines it.
-/

namespace ZephyrLog

namespace RingBuffer

open TicketQueue (Event)

variable {T α : Type} {N : ℕ}

/-- What a step does to the queue with tickets. -/
def event (s : System T α) : Label T α → Option (Event (Entry α))
  | .claim _ line => some (.claim ⟨s.claims.length, line⟩)
  | .store t => match s.producers t with
    | .storing _ e => some (.publish e.ticket)
    | .idle => none
  | .tryPop => some (if s.ring.Unread s.ring.readSlot then .pop else .empty)

/-- The state `q` of the queue with tickets belongs to the state `s`. -/
structure Agrees (s : System T α) (q : TicketQueue (Entry α)) : Prop where
  lines : q.lines = s.entries
  taken : q.taken = s.popped.length
  published : ∀ n, q.published n = true ↔ ∃ e ∈ s.stored, e.ticket = n

namespace Agrees

variable {s s' : System T α} {q : TicketQueue (Entry α)}

theorem init (N : ℕ) : Agrees (System.init N : System T α) .init where
  lines := rfl
  taken := rfl
  published := by simp [TicketQueue.init, System.init]

/-- The consumer's slot is unread exactly when the line of the next ticket is published. -/
theorem unread_iff (h : Agrees s q) (hN : N ∣ 2 ^ 32) (ht : Tickets N s) (ho : InOrder N s) :
    s.ring.Unread s.ring.readSlot ↔ q.published q.taken = true := by
  rw [h.published, h.taken]
  constructor
  · intro hu
    obtain ⟨e, he, hticket, -⟩ := ho.head hN ht hu
    exact ⟨e, he, hticket⟩
  · rintro ⟨e, he, hticket⟩
    rw [ho.readSlot ht, ← hticket]
    exact ho.stored e he hticket.ge

variable [DecidableEq T]

theorem claim (h : Agrees s q) (t : T) (line : α) :
    Agrees (s.afterClaim t line) { q with lines := q.lines ++ [⟨s.claims.length, line⟩] } where
  lines := by rw [InOrder.entries_afterClaim, h.lines]
  taken := h.taken
  published := h.published

theorem store (h : Agrees s q) (t : T) (i : ℕ) (e : Entry α) :
    Agrees (s.afterStore t i e)
      { q with published := Function.update q.published e.ticket true } where
  lines := h.lines
  taken := h.taken
  published := by
    intro n
    show _ ↔ ∃ f ∈ s.stored ++ [e], f.ticket = n
    by_cases hn : n = e.ticket
    · rw [hn]
      exact iff_of_true (Function.update_self ..) ⟨e, by simp, rfl⟩
    · simp [hn, h.published, Ne.symm hn]

/-- Every step is answered by the queue with tickets. -/
theorem step (h : Agrees s q) (hN : N ∣ 2 ^ 32) (ht : Tickets N s) (ho : InOrder N s)
    {l : Label T α} (hs : s.step l = some s') :
    ∃ q', (TicketQueue.machine (Entry α)).Answers Machine.anyStep q (event s l) q' ∧
      Agrees s' q' := by
  rcases step_cases hs with ⟨t, line, rfl, -, rfl⟩ | ⟨t, i, e, rfl, hst, rfl⟩ | ⟨rfl, rfl⟩
  · exact ⟨_, ⟨trivial, rfl⟩, h.claim t line⟩
  · refine ⟨_, ?_, h.store t i e⟩
    simp only [event, hst]
    refine ⟨trivial, if_pos ⟨?_, ?_⟩⟩
    · rw [h.lines, System.entries, List.length_mapIdx]
      exact ht.ticket_lt_of_storing hst
    · rw [← Bool.not_eq_true, h.published]
      rintro ⟨f, hf, hticket⟩
      exact ht.ticket_ne_of_storing hst hf hticket
  · have hiff := h.unread_iff hN ht ho
    by_cases hu : s.ring.Unread s.ring.readSlot
    · refine ⟨{ q with taken := q.taken + 1 }, ?_, h.lines, ?_, h.published⟩
      · simp only [event, if_pos hu]
        exact ⟨trivial, if_pos (hiff.1 hu)⟩
      · rw [afterPop_of_unread hu, List.length_append, List.length_singleton, h.taken]
    · refine ⟨q, ?_, ?_⟩
      · simp only [event, if_neg hu]
        exact ⟨trivial, if_neg fun hpub => hu (hiff.2 hpub)⟩
      · rwa [afterPop_of_not_unread hu]

theorem simulates (hN : N ∣ 2 ^ 32) : (machine T α N).Simulates (NotOverrun N)
    (TicketQueue.machine (Entry α)) Machine.anyStep event
    fun s q => Tickets N s ∧ InOrder N s ∧ Agrees s q where
  init := ⟨.init N, .init N, .init N⟩
  step := by
    rintro s l s' q ⟨ht, ho, h⟩ hroom hs
    obtain ⟨q', hq', h'⟩ := h.step hN ht ho hs
    exact ⟨q', hq', ht.step hs, ho.step hN ht hroom hs, h'⟩

omit [DecidableEq T] in
/-- With no push in flight every ticket is published. -/
theorem published_of_quiet (h : Agrees s q) (ht : Tickets N s) (hquiet : s.NoPushInFlight) (n : ℕ)
    (hn : n < q.lines.length) : q.published n = true := by
  rw [h.lines, System.entries, List.length_mapIdx] at hn
  apply (h.published n).2
  apply (ht.accounted n hn).resolve_left
  rintro ⟨t, i, e, hst, -⟩
  cases (hquiet t).symm.trans hst

end Agrees

namespace Locked

/-- What a step of the ring with its locks does to the queue with tickets. -/
def event (s : System T α) : Label T α → Option (Event (Entry α))
  | .push _ line => some (.claim ⟨s.entries.length, line⟩)
  | .produce t => match s.producers t with
    | .pushing _ e .mark => some (.publish e.ticket)
    | _ => none
  | .tryPop => none
  | .consume => match s.consumer with
    | .check i => some (if s.ring.Unread i then .pop else .empty)
    | _ => none

/-- It is what the answer of the atomic ring does. -/
theorem event_eq {s : System T α} {a : RingBuffer.System T α} (hx : Excluded s) (h : Refines s a)
    (l : Label T α) : event s l = (answer s l).bind (RingBuffer.event a) := by
  cases l with
  | push t line =>
    have hlen := congrArg List.length h.entries
    rw [RingBuffer.System.entries, List.length_mapIdx] at hlen
    simp [event, answer, RingBuffer.event, hlen]
  | produce t =>
    cases ht : s.producers t with
    | idle => simp [event, answer, ht]
    | pushing i e pc =>
      have hview := h.producers t
      rw [ht] at hview
      cases pc with
      | mark => simp [event, answer, ht, RingBuffer.event, hview, Producer.view]
      | _ => simp [event, answer, ht]
  | tryPop => rfl
  | consume =>
    cases hc : s.consumer with
    | check i =>
      obtain ⟨hslot, hitem⟩ := h.check hx hc
      have hiff : a.ring.Unread a.ring.readSlot ↔ s.ring.Unread i := by
        rw [hslot, Unread, Unread, hitem]
      by_cases hu : s.ring.Unread i
      · simp [event, answer, hc, RingBuffer.event, hu, hiff]
      · simp [event, answer, hc, RingBuffer.event, hu, hiff]
    | _ => simp [event, answer, hc]

variable [DecidableEq T]

/-- The ring with its locks refines the queue with tickets. -/
theorem simulates_ticketQueue (hN : N ∣ 2 ^ 32) : (machine T α N).Simulates (NotOverrun N)
    (TicketQueue.machine (Entry α)) Machine.anyStep event
    fun s q => ∃ a, (Excluded s ∧ Refines s a) ∧ Tickets N a ∧ InOrder N a ∧ Agrees a q :=
  (simulates_notOverrun N).comp (Agrees.simulates hN) fun _ _ l h => event_eq h.1 h.2 l

end Locked

/-- A ring of `2 ^ k` slots with `k ≤ 31`, with its locks, refines the queue with tickets in every
interleaving in which pushes do not overrun the consumer: the claims, marks and looks of the run are
a run of that queue; the lines returned are the first ones claimed; and with no push in flight the
queue is found empty exactly when all lines have been returned. -/
theorem locked_refines_ticketQueue [DecidableEq T] {k : ℕ} (hk : k ≤ 31) {s : Locked.System T α}
    {es : List (Event (Entry α))}
    (h : ((Locked.machine T α (2 ^ k)).record fun s l => (Locked.event s l).toList).Reachable
      (fun x l => Locked.NotOverrun (2 ^ k) x.1 l) (s, es)) :
    ∃ q, (TicketQueue.machine (Entry α)).exec .init es = some q ∧
      s.entries = TicketQueue.claimed es ∧
      s.popped ++ s.finding =
        ((TicketQueue.claimed es).take (TicketQueue.popped es)).map Cell.line ∧
      ((∀ t, s.producers t = .idle) →
        ((q.step .empty).isSome ↔ TicketQueue.popped es = s.entries.length)) := by
  obtain ⟨q, hexec, -, a, ⟨-, href⟩, ht, ho, hq⟩ :=
    (Locked.simulates_ticketQueue (pow_dvd_pow 2 (by omega))).trace h
  obtain ⟨hlines, htaken⟩ := TicketQueue.exec_lines hexec
  have hentries : a.entries = TicketQueue.claimed es := hq.lines.symm.trans hlines
  have hpopped : a.popped.length = TicketQueue.popped es :=
    hq.taken.symm.trans (htaken.trans (Nat.zero_add _))
  refine ⟨q, hexec, href.entries.symm.trans hentries, ?_, fun hidle => ?_⟩
  · rw [← href.popped, ← hentries, ← hpopped]
    exact ho.popped
  · have hquiet : a.NoPushInFlight := fun t => by
      rw [href.producers, hidle t]
      rfl
    have hvalid := TicketQueue.Valid.init.exec hexec
    rw [hvalid.empty_iff (hq.published_of_quiet ht hquiet), hq.taken, hq.lines, hpopped,
      href.entries]

/-- The second of two claims is marked first, so the first of three calls of `tryPop` fails. -/
theorem locked_refines_ticketQueue_two :
    ∃ (s : Locked.System Bool ℕ) (es : List (Event (Entry ℕ))),
      es = [.claim ⟨0, 7⟩, .claim ⟨1, 8⟩, .publish 1, .empty, .publish 0, .pop, .pop] ∧
      s.popped = [.line ⟨0, 7⟩, .line ⟨1, 8⟩] ∧
      ∃ q, (TicketQueue.machine (Entry ℕ)).exec .init es = some q := by
  let recorded := (Locked.machine Bool ℕ (2 ^ 1)).record fun s l => (Locked.event s l).toList
  obtain ⟨⟨s, es⟩, hs, hfin⟩ := Option.map_eq_some_iff.1 (show
    ((recorded.restrict fun x l => Locked.NotOverrun (2 ^ 1) x.1 l).exec (.init (2 ^ 1), [])
      ([.push false 7, .push true 8] ++ List.replicate 4 (.produce true) ++
        [.tryPop] ++ List.replicate 3 .consume ++ List.replicate 4 (.produce false) ++
        [.tryPop] ++ List.replicate 5 .consume ++ [.tryPop] ++ List.replicate 5 .consume)).map
      (fun x => (x.1.popped, x.2)) =
      some ([.line ⟨0, 7⟩, .line ⟨1, 8⟩], [.claim ⟨0, 7⟩, .claim ⟨1, 8⟩, .publish 1, .empty,
        .publish 0, .pop, .pop]) by decide +kernel)
  obtain ⟨hpopped, hes⟩ := Prod.mk.inj hfin
  obtain ⟨q, hq, -⟩ := locked_refines_ticketQueue (by decide) (.of_restrict hs)
  exact ⟨s, es, hes, hpopped, q, hq⟩

end RingBuffer

end ZephyrLog
