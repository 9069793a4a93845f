import Mathlib.Data.Prod.Lex
import Mathlib.Order.WellFounded
import ZephyrLog.AsyncLogger.Working
import ZephyrLog.Lib.Fairness

/-!
# The destructor of the logger returns

The destructor stores `SHUTDOWN` and joins the worker, so it returns only if the worker ends.  After
`SHUTDOWN` no push is in flight, so that the worker waits for nothing; it leaves the `READY` loop
after at most one more call of `tryPop`, and each round of the drain loop writes one of finitely
many lines, until `tryPop` fails.  Under every fair schedule of worker and owner this comes to an
end.
-/

namespace ZephyrLog

namespace AsyncLogger

open BufferBase ObservedBuffer

variable {B T α L : Type}

/-- How far the worker is from the end, if it writes no further line and its call of `tryPop` is
`inside` operations from the end. -/
def Worker.left (inside : ℕ) : Worker → ℕ
  | .waitInit => 40
  | .tryPop .ready => 39
  | .inside .ready => 20 + inside
  | .write .ready => 20
  | .loadState => 19
  | .tryPop .drain => 18
  | .inside .drain => 5 + inside
  | .write .drain => 5
  | .ended => 0

/-- `tryPop` comes nearer to its end, and the worker with it. -/
theorem Loop.resume_left_lt (loop : Loop) {inside after : ℕ} (h : after < inside)
    (r : Option (Option Bool)) :
    (loop.resume r).left after < (Worker.inside loop).left inside := by
  rcases r with _ | _ | _ | _ <;> cases loop <;> simp only [resume, failed, Worker.left] <;> omega

/-- The steps the owner still makes once the worker has ended. -/
def Owner.left : Owner → ℕ
  | .joining => 1
  | _ => 0

/-- The owner has joined the worker. -/
def Ended (s : AsyncLogger B L) : Prop := s.owner = .joined ∧ s.worker = .ended

variable [ObservedBuffer B T α L] {s s' : AsyncLogger B L} {b₀ : B}

/-- How far worker and owner are from their ends: first the lines that are still to be written. -/
def left (s : AsyncLogger B L) : ℕ ×ₗ ℕ :=
  toLex ((entries s.buffer).length - s.written.length,
    s.worker.left (ObservedBuffer.left s.buffer) + s.owner.left)

section Less

theorem left_lt_of_worker (hentries : entries s'.buffer = entries s.buffer)
    (hwritten : s'.written = s.written) (howner : s'.owner = s.owner) {w w' : Worker}
    (hw : s.worker = w) (hw' : s'.worker = w')
    (hlt : w'.left (ObservedBuffer.left s'.buffer) < w.left (ObservedBuffer.left s.buffer)) :
    s'.left < s.left := by
  refine Prod.Lex.toLex_lt_toLex.2 (.inr ⟨by simp only [hentries, hwritten], ?_⟩)
  simp only [hw, hw', howner]
  omega

/-- After `SHUTDOWN` every step that is no wait brings worker and owner nearer to their ends. -/
theorem less (hb : Lawful b₀) (h : Working s)
    (hr : (BufferBase.machine b₀).Reachable Machine.anyStep s.buffer) (hshut : s.state = .shutdown)
    {l : Label T α} (hg : AddsReturned s l) (hs : s.step l = some s') :
    s' = s ∨ s'.left < s.left := by
  have howner := h.shutdown.1 hshut
  have hquiet := h.quiet_of_shutdown hshut
  cases Step.of_step hs with
  | add t a b hop => rcases howner with ho | ho <;> simpa [ho] using hg.2 t a rfl
  | produce t b hop => cases (hb.produce_of_quiet t hquiet).symm.trans hop
  | badAlloc t b hop => cases (hb.badAlloc_of_quiet t hquiet).symm.trans hop
  | wait hw hinit => exact .inl rfl
  | start hw hinit => exact .inr (left_lt_of_worker rfl rfl rfl hw rfl (by simp [Worker.left]))
  | loadState hw =>
    exact .inr (left_lt_of_worker rfl rfl rfl hw rfl (by simp [hshut, Worker.left]))
  | tryPop loop b hw hop =>
    obtain ⟨-, -, -, -, hleft⟩ := hb.tryPop hop
    refine .inr (left_lt_of_worker (hb.of_consumer id hop).1 rfl rfl hw rfl ?_)
    cases loop <;> simp only [Worker.left] <;> omega
  | inside loop b hw hop =>
    rcases hb.left_consume hop with rfl | hlt
    · have hat := h.worker
      rw [hw] at hat
      exact .inl (by rw [hat.2.1, Loop.resume, ← hw])
    · exact .inr (left_lt_of_worker (hb.of_consumer id hop).1 rfl rfl hw rfl
        (loop.resume_left_lt hlt _))
  | write loop hw =>
    have hat := h.worker
    rw [hw] at hat
    obtain ⟨-, hresult, hpop⟩ := hat
    have hlen := hb.popped_length_le hr
    rw [hpop, hb.inHand_of_result hresult, List.length_append, List.length_singleton] at hlen
    refine .inr (Prod.Lex.toLex_lt_toLex.2 (.inl ?_))
    simp only [List.length_append, List.length_singleton]
    omega
  | ready ho | shutDown ho | destroy ho => simp [ho] at howner
  | join ho hw =>
    refine .inr (Prod.Lex.toLex_lt_toLex.2 (.inr ⟨rfl, ?_⟩))
    simp [Owner.left, ho]

end Less

section Runs

theorem ne_of_worker {w : Worker} (hw : s.worker = w) (hne : s'.worker ≠ w) : s' ≠ s := by
  rintro rfl
  exact hne hw

/-- After `SHUTDOWN` the worker goes on until it ends. -/
theorem exists_work (hb : Lawful b₀) (h : Working s)
    (hr : (BufferBase.machine b₀).Reachable Machine.anyStep s.buffer) (hshut : s.state = .shutdown)
    (hend : s.worker ≠ .ended) : ∃ s', s.work = some s' ∧ s' ≠ s := by
  have hat := h.worker
  cases hw : s.worker with
  | waitInit =>
    have hinit : s.state ≠ .init := by simp [hshut]
    refine ⟨{ s with worker := .loadState }, ?_, ne_of_worker hw (by simp)⟩
    simp only [work, hw, if_neg hinit]
  | loadState =>
    refine ⟨{ s with worker := .tryPop (if s.state = .ready then .ready else .drain) }, ?_,
      ne_of_worker hw (by simp)⟩
    simp only [work, hw]
  | tryPop loop =>
    rw [hw] at hat
    obtain ⟨-, ⟨r, hresult⟩, -⟩ := hat
    obtain ⟨b, hop⟩ := hb.exists_tryPop hresult
    refine ⟨{ s with buffer := b, worker := .inside loop }, ?_, ne_of_worker hw (by simp)⟩
    simp only [work, hw, onBuffer, hop, Option.map_some]
  | inside loop =>
    rw [hw] at hat
    obtain ⟨b, hop, hchange⟩ := hb.exists_consume hr (h.quiet_of_shutdown hshut) hat.2.1
    refine ⟨{ s with buffer := b, worker := loop.resume (result b) }, ?_,
      fun heq => hchange (congrArg buffer heq)⟩
    simp only [work, hw, onBuffer, hop, Option.map_some]
  | write loop =>
    refine ⟨{ s with written := s.written ++ [logline s.buffer], worker := loop.again }, ?_,
      ne_of_worker hw (by cases loop <;> simp [Loop.again])⟩
    simp only [work, hw]
  | ended => exact absurd hw hend

/-- After `SHUTDOWN` the worker goes on, and when it has ended the owner joins it. -/
theorem goesOn (hb : Lawful b₀) (h : Working s)
    (hr : (BufferBase.machine b₀).Reachable Machine.anyStep s.buffer) (hshut : s.state = .shutdown)
    (hend : ¬ s.Ended) :
    ∃ (l : Label T α) (s' : AsyncLogger B L), (l = .work ∨ l = .own) ∧ s.step l = some s' ∧
      s' ≠ s := by
  by_cases hw : s.worker = .ended
  · rcases h.shutdown.1 hshut with ho | ho
    · refine ⟨.own, { s with owner := .joined }, .inr rfl, ?_, fun heq => ?_⟩
      · simp only [step, own, ho, if_pos hw]
      · have howner := congrArg owner heq
        rw [ho] at howner
        cases howner
    · exact absurd ⟨ho, hw⟩ hend
  · obtain ⟨s', hs, hne⟩ := exists_work hb h hr hshut hw
    exact ⟨.work, s', .inl rfl, hs, hne⟩

/-- The owner does not leave the destructor, and of the buffer's operations only those of the
consumer go on. -/
theorem destroying_step (hb : Lawful b₀) (h : Working s) (ho : s.owner.Destroying) {l : Label T α}
    (hg : AddsReturned s l) (hs : s.step l = some s') : s'.owner.Destroying ∧
      (s.state = .shutdown → s'.state = .shutdown) ∧
      ∀ op, s.operation l = some op → ¬ op.OfProducer := by
  have hquiet := h.quiet_of_destroying ho
  cases Step.of_step hs with
  | add t a b hop =>
    rcases hg.2 t a rfl with heq | heq <;> exact absurd ho (by rw [heq]; exact id)
  | produce t b hop => cases (hb.produce_of_quiet t hquiet).symm.trans hop
  | badAlloc t b hop => cases (hb.badAlloc_of_quiet t hquiet).symm.trans hop
  | tryPop loop b hw hop | inside loop b hw hop =>
    refine ⟨ho, id, fun op hop => ?_⟩
    simp only [operation, hw, Option.some.injEq] at hop
    exact hop ▸ id
  | ready heq | destroy heq => exact absurd ho (by rw [heq]; exact id)
  | shutDown heq => exact ⟨trivial, fun _ => rfl, by simp [operation]⟩
  | join heq hw => exact ⟨trivial, id, by simp [operation]⟩
  | wait hw | start hw | loadState hw | write loop hw =>
    exact ⟨ho, id, by simp [operation, hw]⟩

/-- The owner does not leave the destructor, and no line is added any more. -/
theorem destroying_of_reaches (hb : Lawful b₀) (h : (machine b₀).Reachable AddsReturned s)
    (ho : s.owner.Destroying) (hr : (machine b₀).Reaches AddsReturned s s') :
    s'.owner.Destroying ∧ (s.state = .shutdown → s'.state = .shutdown) ∧
      (BufferBase.machine b₀).Reaches (fun _ op => ¬ op.OfProducer) s.buffer s'.buffer := by
  induction hr with
  | refl => exact ⟨ho, id, .refl⟩
  | @tail s₁ s₂ l hr hg hs ih =>
    obtain ⟨ho₁, hshut, hbuffer⟩ := ih
    obtain ⟨ho₂, hshut₂, hop⟩ := destroying_step hb (.of_reachable hb (h.trans hr)) ho₁ hg hs
    refine ⟨ho₂, hshut₂ ∘ hshut, ?_⟩
    rcases buffer_of_step hs with ⟨-, heq⟩ | ⟨op, heq, hstep⟩
    · rwa [heq]
    · exact .tail op hbuffer (hop op heq) hstep

/-- What the operations of the consumer leave as it is. -/
theorem entries_of_reaches (hb : Lawful b₀) {b b' : B}
    (h : (BufferBase.machine b₀).Reaches (fun _ op => ¬ op.OfProducer) b b') :
    entries b' = entries b := by
  induction h with
  | refl => rfl
  | tail op _ hop hs ih => exact (hb.of_consumer hop hs).1.trans ih

theorem step_own_of_destroying (ho : s.owner = .destroying) :
    (machine b₀).step s .own = some { s with state := .shutdown, owner := .joining } := by
  show s.own = _
  rw [own, ho]

variable {σ : ℕ → Label T α}

/-- The destructor stores `SHUTDOWN`. -/
theorem exists_shutdown (hb : Lawful b₀) (h : (machine b₀).Reachable AddsReturned s)
    (ho : s.owner.Destroying) (hfair : Machine.Fair σ fun l => l = .work ∨ l = .own)
    (hguard : ∀ n, AddsReturned ((machine b₀).run s σ n) (σ n)) :
    ∃ n, ((machine b₀).run s σ n).state = .shutdown := by
  obtain ⟨m, -, hm⟩ := hfair .own (.inr rfl) 0
  have hr := Machine.run_reaches hguard m
  have hworking := Working.of_reachable hb (h.trans hr)
  have howner := (destroying_of_reaches hb h ho hr).1
  cases hown : ((machine b₀).run s σ m).owner with
  | constructing | running =>
    rw [hown] at howner
    exact howner.elim
  | destroying =>
    refine ⟨m + 1, ?_⟩
    rw [Machine.run, hm, step_own_of_destroying hown]
    rfl
  | joining => exact ⟨m, hworking.shutdown.2 (.inl hown)⟩
  | joined => exact ⟨m, hworking.shutdown.2 (.inr hown)⟩

theorem exists_ended (hb : Lawful b₀) (h : (machine b₀).Reachable AddsReturned s)
    (hshut : s.state = .shutdown) (hfair : Machine.Fair σ fun l => l = .work ∨ l = .own)
    (hguard : ∀ n, AddsReturned ((machine b₀).run s σ n) (σ n)) :
    ∃ n, ((machine b₀).run s σ n).Ended := by
  have ho : s.owner.Destroying := (Working.of_reachable hb h).destroying_of_shutdown hshut
  have hstate {t : AsyncLogger B L} (ht : (machine b₀).Reaches AddsReturned s t) :
      t.state = .shutdown := (destroying_of_reaches hb h ho ht).2.1 hshut
  refine Machine.Fair.exists_done AddsReturned left Ended
    (fun t l u ht hg hs => ?_) (fun t ht hend => ?_) hfair hguard
  · exact less hb (.of_reachable hb (h.trans ht)) (buffer_reaches (h.trans ht)) (hstate ht) hg hs
  · exact goesOn hb (.of_reachable hb (h.trans ht)) (buffer_reaches (h.trans ht)) (hstate ht) hend

/-- The destructor returns: if every `add` has returned when it begins, then under every schedule
that gives worker and owner their turn again and again the owner joins the worker. -/
theorem exists_joined (hb : Lawful b₀) (h : (machine b₀).Reachable AddsReturned s)
    (ho : s.owner.Destroying) (hfair : Machine.Fair σ fun l => l = .work ∨ l = .own)
    (hguard : ∀ n, AddsReturned ((machine b₀).run s σ n) (σ n)) :
    ∃ n, ((machine b₀).run s σ n).Ended := by
  obtain ⟨m, hshut⟩ := exists_shutdown hb h ho hfair hguard
  have hm := h.trans (Machine.run_reaches hguard m)
  obtain ⟨n, hn⟩ := exists_ended hb hm hshut (hfair.drop m) fun k => by
    rw [← Machine.run_add]
    exact hguard _
  rw [← Machine.run_add] at hn
  exact ⟨m + n, hn⟩

end Runs

/-- Worker and owner take turns. -/
def inTurn (T α : Type) (n : ℕ) : Label T α := if n % 2 = 0 then .work else .own

theorem fair_inTurn (T α : Type) : Machine.Fair (inTurn T α) fun l => l = .work ∨ l = .own := by
  refine .of_periodic Nat.two_pos (fun n => by simp [inTurn]) ?_
  rintro l (rfl | rfl)
  · exact ⟨0, rfl⟩
  · exact ⟨1, rfl⟩

/-- A call of `add` by thread `t`, whose `push` takes `n` operations. -/
def adding (n : ℕ) (t : T) (a : α) : List (Label T α) := .add t a :: List.replicate n (.produce t)

theorem addsReturned_inTurn (s : AsyncLogger B L) (n : ℕ) :
    AddsReturned s (inTurn T α n) := by
  unfold inTurn
  split <;> exact ⟨by simp, by simp⟩

end AsyncLogger

end ZephyrLog
