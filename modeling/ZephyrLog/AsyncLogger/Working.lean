import ZephyrLog.AsyncLogger.Contract

/-!
# The worker of the logger

`Working` says what holds at each location of the worker: the lines written are those popped, up to
the one in hand, and the drain loop runs only after `SHUTDOWN`, when no `add` is in flight.  With
nothing in flight a failed `tryPop` means that there is no line left, so the worker ends only then.
-/

namespace ZephyrLog

namespace AsyncLogger

open BufferBase ObservedBuffer

variable {B T α L : Type} [ObservedBuffer B T α L]

/-- The worker has seen that the constructor is over; in the drain loop, that the destructor is at
work. -/
def Seen (s : AsyncLogger B L) (loop : Loop) : Prop :=
  s.state ≠ .init ∧ (loop = .drain → s.state = .shutdown)

/-- Outside of `tryPop` all that was popped is written. -/
def Settled (s : AsyncLogger B L) : Prop :=
  (∃ r, result s.buffer = some r) ∧ popped s.buffer = s.written

/-- What holds while the worker is at a location. -/
def AtWorker (s : AsyncLogger B L) : Worker → Prop
  | .waitInit => s.Settled
  | .loadState => s.state ≠ .init ∧ s.Settled
  | .tryPop loop => s.Seen loop ∧ s.Settled
  | .inside loop =>
    s.Seen loop ∧ result s.buffer = none ∧ popped s.buffer = s.written ++ inHand s.buffer ∧
      (loop = .drain → Failed s.buffer → Drained s.buffer)
  | .write loop =>
    s.Seen loop ∧ result s.buffer = some (some true) ∧
      popped s.buffer = s.written ++ inHand s.buffer
  | .ended => s.state = .shutdown ∧ s.Settled ∧ Drained s.buffer

/-- The owner, the worker and the buffer agree. -/
structure Working (s : AsyncLogger B L) : Prop where
  init : s.state = .init ↔ s.owner = .constructing
  shutdown : s.state = .shutdown ↔ s.owner = .joining ∨ s.owner = .joined
  quiet : s.owner ≠ .constructing → s.owner ≠ .running → NoPushInFlight s.buffer
  worker : s.AtWorker s.worker

variable {s s' : AsyncLogger B L} {b₀ : B}

namespace Working

theorem of_new (hb : Lawful b₀) : Working (.new b₀ : AsyncLogger B L) where
  init := by simp [new]
  shutdown := by simp [new]
  quiet := fun h => absurd rfl h
  worker := ⟨hb.result_init, hb.popped_init⟩

theorem quiet_of_destroying (h : Working s) (ho : s.owner.Destroying) :
    NoPushInFlight s.buffer := by
  refine h.quiet ?_ ?_ <;> intro heq <;> rw [heq] at ho <;> exact ho

theorem destroying_of_shutdown (h : Working s) (hs : s.state = .shutdown) : s.owner.Destroying := by
  rcases h.shutdown.1 hs with ho | ho <;> rw [ho] <;> trivial

theorem quiet_of_shutdown (h : Working s) (hs : s.state = .shutdown) : NoPushInFlight s.buffer :=
  h.quiet_of_destroying (h.destroying_of_shutdown hs)

/-- The constructor stores `READY`: until then the worker waits. -/
theorem ready (h : Working s) (ho : s.owner = .constructing) :
    Working { s with state := .ready, owner := .running } where
  init := by simp
  shutdown := by simp
  quiet := fun _ hrun => absurd rfl hrun
  worker := by
    have hinit := h.init.2 ho
    have hw := h.worker
    show AtWorker _ s.worker
    cases hworker : s.worker with
    | waitInit => rwa [hworker] at hw
    | loadState =>
      rw [hworker] at hw
      exact absurd hinit hw.1
    | tryPop | inside | write =>
      rw [hworker] at hw
      exact absurd hinit hw.1.1
    | ended =>
      rw [hworker] at hw
      cases hinit.symm.trans hw.1

/-- The destructor stores `SHUTDOWN`. -/
theorem shutDown (h : Working s) (ho : s.owner = .destroying) :
    Working { s with state := .shutdown, owner := .joining } where
  init := by simp
  shutdown := by simp
  quiet := fun _ _ => h.quiet (by simp [ho]) (by simp [ho])
  worker := by
    have hw := h.worker
    show AtWorker _ s.worker
    cases hworker : s.worker with
    | waitInit => rwa [hworker] at hw
    | loadState =>
      rw [hworker] at hw
      exact ⟨by simp, hw.2⟩
    | tryPop | inside | write =>
      rw [hworker] at hw
      exact ⟨⟨by simp, fun _ => rfl⟩, hw.2⟩
    | ended =>
      rw [hworker] at hw
      exact ⟨rfl, hw.2⟩

/-- The owner goes on without a store to `m_state`. -/
theorem own (h : Working s) {o : Owner} (ho : s.owner = .joining ∧ o = .joined ∨
    s.owner = .running ∧ o = .destroying ∧ NoPushInFlight s.buffer) :
    Working { s with owner := o } where
  init := by
    have hinit := h.init
    rcases ho with ⟨ho, rfl⟩ | ⟨ho, rfl, -⟩ <;> simpa [ho] using hinit
  shutdown := by
    have hshut := h.shutdown
    rcases ho with ⟨ho, rfl⟩ | ⟨ho, rfl, -⟩ <;> simpa [ho] using hshut
  quiet := by
    intro _ _
    rcases ho with ⟨ho, -⟩ | ⟨-, -, hquiet⟩
    · exact h.quiet (by simp [ho]) (by simp [ho])
    · exact hquiet
  worker := h.worker

/-- The worker goes on, and the threads inside `push` stay where they are. -/
theorem goto (h : Working s) (hstate : s'.state = s.state) (howner : s'.owner = s.owner)
    (hquiet : NoPushInFlight s.buffer → NoPushInFlight s'.buffer) (hw : s'.AtWorker s'.worker) :
    Working s' where
  init := by rw [hstate, howner]; exact h.init
  shutdown := by rw [hstate, howner]; exact h.shutdown
  quiet := by
    rw [howner]
    intro h₁ h₂
    exact hquiet (h.quiet h₁ h₂)
  worker := hw

/-- The worker sees that the constructor is over. -/
theorem start (h : Working s) (hworker : s.worker = .waitInit) (hinit : s.state ≠ .init) :
    Working { s with worker := .loadState } := by
  have hw := h.worker
  rw [hworker] at hw
  exact h.goto rfl rfl id ⟨hinit, hw⟩

/-- The worker looks at the state. -/
theorem loadState (h : Working s) (hworker : s.worker = .loadState) :
    Working { s with worker := .tryPop (if s.state = .ready then .ready else .drain) } := by
  have hw := h.worker
  rw [hworker] at hw
  refine h.goto rfl rfl id ⟨⟨hw.1, fun hloop => ?_⟩, hw.2⟩
  cases hstate : s.state with
  | init => exact absurd hstate hw.1
  | ready => simp [hstate] at hloop
  | shutdown => rfl

/-- The worker writes the line in its hand. -/
theorem write (hb : Lawful b₀) (h : Working s) {loop : Loop} (hworker : s.worker = .write loop) :
    Working { s with written := s.written ++ [logline s.buffer], worker := loop.again } := by
  have hw := h.worker
  rw [hworker] at hw
  obtain ⟨hseen, hresult, hpop⟩ := hw
  rw [hb.inHand_of_result hresult] at hpop
  refine h.goto rfl rfl id ?_
  cases loop with
  | ready => exact ⟨hseen.1, ⟨_, hresult⟩, hpop⟩
  | drain => exact ⟨hseen, ⟨_, hresult⟩, hpop⟩

/-- A step of a thread inside `push`. -/
theorem produce (hb : Lawful b₀) (h : Working s) (op : Op T α) {b : B} (hop : op.OfProducer)
    (hpush : ∀ t a, op = .push t a → s.owner = .constructing ∨ s.owner = .running)
    (hstep : BufferBase.step s.buffer op = some b) : Working { s with buffer := b } := by
  have howner : s.owner = .constructing ∨ s.owner = .running := by
    by_contra hno
    have hquiet := h.quiet (fun ho => hno (.inl ho)) (fun ho => hno (.inr ho))
    cases op with
    | push t a => exact hno (hpush t a rfl)
    | produce t => cases (hb.produce_of_quiet t hquiet).symm.trans hstep
    | badAlloc t => cases (hb.badAlloc_of_quiet t hquiet).symm.trans hstep
    | tryPop | consume => exact hop
  have hne : s.state ≠ .shutdown := by
    intro hs
    rcases h.shutdown.1 hs with ho | ho <;> rw [ho] at howner <;> simp at howner
  obtain ⟨hresult, hpopped, hhand⟩ := hb.of_producer hop hstep
  have hw := h.worker
  exact
    { init := h.init
      shutdown := h.shutdown
      quiet := fun h₁ h₂ => absurd howner (by simp [h₁, h₂])
      worker := by
        show AtWorker _ s.worker
        cases hworker : s.worker with
        | waitInit | loadState | tryPop | write =>
          simpa only [hworker, AtWorker, Settled, Seen, hresult, hpopped, hhand] using hw
        | inside loop =>
          rw [hworker] at hw
          obtain ⟨hseen, hinside, hpop, -⟩ := hw
          refine ⟨hseen, hresult.trans hinside, ?_, fun hloop => absurd (hseen.2 hloop) hne⟩
          rw [hpopped, hhand]
          exact hpop
        | ended =>
          rw [hworker] at hw
          exact absurd hw.1 hne }

/-- `tryPop` begins. -/
theorem tryPop (hb : Lawful b₀) (h : Working s) {loop : Loop} (hworker : s.worker = .tryPop loop)
    {b : B} (hstep : BufferBase.step s.buffer .tryPop = some b) :
    Working { s with buffer := b, worker := .inside loop } := by
  have hw := h.worker
  rw [hworker] at hw
  obtain ⟨hseen, -, hpop⟩ := hw
  obtain ⟨hresult, hpopped, hhand, hfailed, -⟩ := hb.tryPop hstep
  refine h.goto rfl rfl (hb.of_consumer id hstep).2 ⟨hseen, hresult, ?_, fun _ hf => ?_⟩
  · rw [hpopped, hhand, hpop, List.append_nil]
  · exact absurd hf hfailed

/-- An operation inside `tryPop`. -/
theorem inside (hb : Lawful b₀) (h : Working s)
    (hr : (BufferBase.machine b₀).Reachable Machine.anyStep s.buffer) {loop : Loop}
    (hworker : s.worker = .inside loop) {b : B}
    (hstep : BufferBase.step s.buffer .consume = some b) :
    Working { s with buffer := b, worker := loop.resume (result b) } := by
  have hw := h.worker
  rw [hworker] at hw
  obtain ⟨hseen, -, hpop, hdrained⟩ := hw
  have hpop' := hb.popped_consume hstep hpop
  have hdrained' (hloop : loop = .drain) (hfailed : Failed b) : Drained b :=
    hb.drained hr (h.quiet_of_shutdown (hseen.2 hloop)) (hdrained hloop) hstep hfailed
  refine h.goto rfl rfl (hb.of_consumer id hstep).2 ?_
  cases hresult : result b with
  | none => exact ⟨hseen, hresult, hpop', hdrained'⟩
  | some r =>
    rcases hb.result_consume hstep hresult with rfl | ⟨rfl, hhand, hfailed⟩
    · exact ⟨hseen, hresult, hpop'⟩
    · rw [hhand, List.append_nil] at hpop'
      cases loop with
      | ready => exact ⟨hseen.1, ⟨_, hresult⟩, hpop'⟩
      | drain => exact ⟨hseen.2 rfl, ⟨⟨_, hresult⟩, hpop'⟩, hdrained' rfl hfailed⟩

theorem step (hb : Lawful b₀) (h : Working s)
    (hr : (BufferBase.machine b₀).Reachable Machine.anyStep s.buffer) {l : Label T α}
    (hg : AddsReturned s l) (hs : s.step l = some s') : Working s' := by
  cases Step.of_step hs with
  | add t a b hop => exact h.produce hb (.push t a) trivial (fun _ _ _ => hg.2 t a rfl) hop
  | produce t b hop => exact h.produce hb (.produce t) trivial (by simp) hop
  | badAlloc t b hop => exact h.produce hb (.badAlloc t) trivial (by simp) hop
  | wait hw hinit => exact h
  | start hw hinit => exact h.start hw hinit
  | loadState hw => exact h.loadState hw
  | tryPop loop b hw hop => exact h.tryPop hb hw hop
  | inside loop b hw hop => exact h.inside hb hr hw hop
  | write loop hw => exact h.write hb hw
  | ready ho => exact h.ready ho
  | shutDown ho => exact h.shutDown ho
  | join ho hw => exact h.own (.inl ⟨ho, rfl⟩)
  | destroy ho => exact h.own (.inr ⟨ho, rfl, hg.1 rfl⟩)

/-- What is written has been popped. -/
theorem written_prefix_popped (h : Working s) : s.written <+: popped s.buffer := by
  have hat := h.worker
  cases hw : s.worker with
  | waitInit =>
    rw [hw] at hat
    exact hat.2 ▸ List.prefix_rfl
  | loadState | tryPop =>
    rw [hw] at hat
    exact hat.2.2 ▸ List.prefix_rfl
  | inside =>
    rw [hw] at hat
    exact hat.2.2.1 ▸ List.prefix_append _ _
  | write =>
    rw [hw] at hat
    exact hat.2.2 ▸ List.prefix_append _ _
  | ended =>
    rw [hw] at hat
    exact hat.2.1.2 ▸ List.prefix_rfl

/-- At the end all that was popped is written, and there is no line left. -/
theorem at_end (h : Working s) (hend : s.worker = .ended) : NoPushInFlight s.buffer ∧
    (∃ r, result s.buffer = some r) ∧ popped s.buffer = s.written ∧ Drained s.buffer := by
  have hat := h.worker
  rw [hend] at hat
  obtain ⟨hshut, ⟨hresult, hpopped⟩, hdrained⟩ := hat
  exact ⟨h.quiet_of_shutdown hshut, hresult, hpopped, hdrained⟩

end Working

theorem Working.of_reachable (hb : Lawful b₀) (h : (machine b₀).Reachable AddsReturned s) :
    Working s := by
  induction h with
  | refl => exact .of_new hb
  | tail l hreach hg hs ih => exact ih.step hb (buffer_reaches hreach) hg hs

end AsyncLogger

end ZephyrLog
