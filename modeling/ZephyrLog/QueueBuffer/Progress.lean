import ZephyrLog.QueueBuffer.Lifetime

/-!
# Who resets `m_writeIndex`

A producer that finds `m_writeIndex` past the end spins until some other thread has switched to the
next buffer.  As long as allocation succeeds there always is such a thread: a push that is still to
count its line in the current buffer, or the one that has counted the last line and is switching.
The history of a run shows the switches one after another, one for each buffer, made by the push
that filled it.
-/

namespace ZephyrLog

namespace QueueBuffer

variable {T α : Type}

/-- The allocation of no thread throws. -/
def Allocates (_ : System T α) (l : Label T α) : Prop := ∀ t, l ≠ .badAlloc t

/-- Thread `t` holds a claim on the current write buffer and is still to count its line there. -/
def System.HoldsClaim (s : System T α) (t : T) : Prop :=
  ∃ p b, s.queue.currentWriteBuffer = some b ∧
    ((∃ w < Buffer.size, s.producers t = .pushing p (.load w) ∨
        s.producers t = .pushing p (.construct b w) ∨ s.producers t = .pushing p (.publish b w)) ∨
      s.producers t = .pushing p (.count b))

/-- Thread `t` has counted the last line of the buffer being written and is to reset
`m_writeIndex`. -/
def System.IsSwitching (s : System T α) (t : T) : Prop :=
  ∃ p pc, s.producers t = .pushing p pc ∧ pc.switching = 1 ∧ s.counter = Buffer.size

/-- An event in the history of the switches from one buffer to the next. -/
inductive SwitchEvent (T α : Type) where
  /-- The push has brought the counter of the buffer to `Buffer::size`. -/
  | filled (buffer : ℕ) (push : Push T α)
  /-- The push has stored `m_writeIndex = 0`. -/
  | switched (push : Push T α)

/-- What a step contributes to the history of the switches. -/
def switchEvents (s : System T α) : Label T α → List (SwitchEvent T α)
  | .produce t => match s.producers t with
    | .pushing p (.count b) =>
      if ((s.queue.heap b).count + 1).toNat = Buffer.size then [.filled b p] else []
    | .pushing p .resetIndex => [.switched p]
    | _ => []
  | _ => []

/-- The history in which the pushes `ps` have filled and switched the buffers 0, 1, 2, … -/
def switchLog (ps : List (Push T α)) : List (SwitchEvent T α) :=
  ps.zipIdx.flatMap fun x => [.filled x.2 x.1, .switched x.1]

theorem switchLog_concat (ps : List (Push T α)) (p : Push T α) :
    switchLog (ps ++ [p]) = switchLog ps ++ [.filled ps.length p, .switched p] := by
  simp [switchLog, List.zipIdx_append]

/-- The threads that switch, the counter and the history agree. -/
structure Switched [Fintype T] (s : System T α) (es : List (SwitchEvent T α)) : Prop where
  armed : s.counter = Buffer.size → 0 < s.total Pc.switching
  log : ∃ ps, ps.length = s.switches ∧
    (s.total Pc.switching = 0 ∧ es = switchLog ps ∨
      ∃ t p pc, s.producers t = .pushing p pc ∧ pc.switching = 1 ∧
        es = switchLog ps ++ [.filled s.switches p])

namespace Switched

variable [Fintype T] {s s' : System T α} {t : T} {p : Push T α} {pc : Pc}
  {es : List (SwitchEvent T α)}

theorem init : Switched (System.init : System T α) [] where
  armed := fun h => absurd h (by
    simp [System.init, System.counter, new, setupNextWriteBuffer, release, resetIndex, enqueue,
      setWriteBuffer, alloc, acquire, Buffer.new, Buffer.count, Buffer.size])
  log := ⟨[], rfl, .inl ⟨Threads.total_eq_zero_iff.2 fun _ => rfl, rfl⟩⟩

/-- A step that no thread takes which switches or is to count. -/
theorem congr (h : Switched s es) (hproducers : s'.producers = s.producers)
    (hswitches : s'.switches = s.switches) (hcounter : s'.counter = s.counter) :
    Switched s' es := by
  have htotal : s'.total Pc.switching = s.total Pc.switching := by
    rw [System.total, hproducers]
    rfl
  exact
    { armed := by
        rw [hcounter, htotal]
        exact h.armed
      log := by
        rw [hswitches, htotal, hproducers]
        exact h.log }

variable [DecidableEq T]

/-- A thread that does not switch goes on to another location where it does not. -/
theorem move (h : Switched s es) (s₁ : System T α) (t : T) (x : Producer T α)
    (hproducers : s₁.producers = s.producers) (hswitches : s₁.switches = s.switches)
    (hcounter : s₁.counter = s.counter ∨ s₁.counter ≠ Buffer.size)
    (hold : (s.producers t).weight Pc.switching = 0) (hnew : x.weight Pc.switching = 0) :
    Switched { s₁ with producers := Function.update s₁.producers t x } es := by
  have hu := total_update s t x Pc.switching
  rw [hold, hnew, ← hproducers] at hu
  have htotal : { s₁ with producers := Function.update s₁.producers t x }.total Pc.switching =
      s.total Pc.switching := hu
  refine ⟨fun hfull => ?_, ?_⟩
  · rw [htotal]
    rcases hcounter with heq | hne
    · exact h.armed (heq ▸ hfull)
    · exact absurd hfull hne
  · obtain ⟨ps, hps, hlog⟩ := h.log
    refine ⟨ps, hps.trans hswitches.symm, ?_⟩
    rcases hlog with ⟨hzero, rfl⟩ | ⟨t', q, pc, ht', hpc, rfl⟩
    · exact .inl ⟨htotal.trans hzero, rfl⟩
    · refine .inr ⟨t', q, pc, ?_, hpc, by rw [← hswitches]⟩
      have hne : t' ≠ t := by
        rintro rfl
        rw [ht', weight_pushing, hpc] at hold
        cases hold
      exact (Function.update_of_ne hne _ _).trans (hproducers ▸ ht')

/-- The switching thread goes on, and is still switching. -/
theorem relayout (h : Switched s es) (hsw : Switching s) (ht : s.producers t = .pushing p pc)
    (hpc : pc.switching = 1) (s₁ : System T α) {pc' : Pc} (hpc' : pc'.switching = 1)
    (hswitches : s₁.switches = s.switches) :
    Switched (s₁.goto t p pc') es := by
  have hmine : (s₁.goto t p pc').producers t = .pushing p pc' := producers_goto _ _ _ _
  refine ⟨fun _ => ?_, ?_⟩
  · have hle := le_total Pc.switching hmine
    omega
  · obtain ⟨ps, hps, hlog⟩ := h.log
    refine ⟨ps, hps.trans hswitches.symm, .inr ⟨t, p, pc', hmine, hpc', ?_⟩⟩
    have hpos := le_total Pc.switching ht
    rcases hlog with ⟨hzero, -⟩ | ⟨t', q, pc₂, ht', hpc₂, rfl⟩
    · omega
    · -- there is only one switching thread
      obtain rfl : t' = t := Threads.eq_of_total_le_one hsw.switching_le
        (f := Producer.weight Pc.switching) (by rw [ht', weight_pushing]; omega)
        (by rw [ht, weight_pushing]; omega)
      rw [ht, Producer.pushing.injEq] at ht'
      rw [← ht'.1]
      exact congrArg (fun b => switchLog ps ++ [.filled b p]) hswitches.symm

theorem countLast (h : Switched s es) (hsw : Switching s) {b : ℕ}
    (ht : s.producers t = .pushing p (.count b)) :
    Switched ((s.setQueue (s.queue.onBuffer b .countUp)).goto t p .lock)
      (es ++ [.filled b p]) := by
  obtain rfl : b = s.switches := hsw.pcs t p _ ht
  have hmine : ((s.setQueue (s.queue.onBuffer s.switches .countUp)).goto t p .lock).producers t =
      .pushing p .lock := producers_goto _ _ _ _
  obtain ⟨ps, hps, hlog⟩ := h.log
  refine ⟨fun _ => ?_, ps, hps, .inr ⟨t, p, .lock, hmine, rfl, ?_⟩⟩
  · exact lt_of_lt_of_le Nat.one_pos (le_total Pc.switching hmine)
  · -- nobody switches while a line of the buffer is not counted
    have hlt := hsw.counter_lt ht rfl
    rcases hlog with ⟨-, rfl⟩ | ⟨t', q, pc, ht', hpc, -⟩
    · rfl
    · have hpos := le_total Pc.switching ht'
      have := hsw.full (by omega)
      omega

theorem resetIndex (h : Switched s es) (hsw : Switching s)
    (ht : s.producers t = .pushing p .resetIndex) :
    Switched (s.afterReset.goto t p .unlock) (es ++ [.switched p]) := by
  have hpos := le_total Pc.switching ht
  have hle := hsw.switching_le
  have hu := total_update s t (.pushing p .unlock) Pc.switching
  rw [ht] at hu
  simp only [weight_pushing, Pc.switching] at hu hpos
  obtain ⟨ps, hps, hlog⟩ := h.log
  refine ⟨fun hfull => ?_, ps ++ [p], ?_, .inl ⟨?_, ?_⟩⟩
  · have hzero : (s.afterReset.goto t p .unlock).counter = 0 :=
      congrArg BitVec.toNat (hsw.unused (s.switches + 1) (Nat.lt_succ_self _) Buffer.size)
    rw [hzero] at hfull
    exact absurd hfull (by decide)
  · rw [List.length_append, hps]
    rfl
  · show { s with producers := Function.update s.producers t (.pushing p .unlock) }.total _ = 0
    omega
  · rw [switchLog_concat, hps]
    rcases hlog with ⟨hzero, -⟩ | ⟨t', q, pc, ht', hpc, rfl⟩
    · omega
    · obtain rfl : t' = t := Threads.eq_of_total_le_one hle (f := Producer.weight Pc.switching)
        (by rw [ht', weight_pushing]; omega) (by rw [ht]; exact Nat.one_pos)
      rw [ht, Producer.pushing.injEq] at ht'
      rw [← ht'.1, List.append_assoc]
      rfl

omit [Fintype T] in
/-- A step that leaves everything as it is is no switch. -/
theorem switchEvents_of_wait (hs : s.step (.produce t) = some s) :
    switchEvents s (.produce t) = [] := by
  cases ht : s.producers t with
  | idle => simp [switchEvents, ht]
  | pushing p pc =>
    cases pc with
    | count b =>
      by_cases hfull : ((s.queue.heap b).count + 1).toNat = Buffer.size
      · simp only [System.step, ht, System.produce, if_pos hfull, Option.some.injEq] at hs
        have hmoved := congrFun (congrArg System.producers hs) t
        rw [producers_goto, ht] at hmoved
        cases hmoved
      · simp only [switchEvents, ht, if_neg hfull]
    | resetIndex =>
      simp only [System.step, ht, System.produce, Option.some.injEq] at hs
      have hmoved := congrFun (congrArg System.producers hs) t
      rw [producers_goto, ht] at hmoved
      cases hmoved
    | _ => simp [switchEvents, ht]

omit [DecidableEq T] [Fintype T] in
/-- An operation on a buffer that keeps its counter. -/
theorem counter_onBuffer {b : ℕ} {f : Buffer (Push T α) → Buffer (Push T α)}
    (hf : (f (s.queue.heap b)).count = (s.queue.heap b).count) :
    (s.setQueue (s.queue.onBuffer b f)).counter = s.counter :=
  congrArg BitVec.toNat (onBuffer_view Buffer.count hf s.switches)

omit [DecidableEq T] in
theorem advance (h : Switched s es) : Switched s.advance es := by
  unfold System.advance
  split
  · exact h.congr rfl rfl rfl
  · exact h.congr rfl rfl rfl

theorem step (h : Switched s es) (hp : Protocol s) {l : Label T α} (hl : Allocates s l)
    (hs : s.step l = some s') : Switched s' (es ++ switchEvents s l) := by
  have hsw := hp.switching
  cases Step.of_step hs with
  | spin t =>
    rw [switchEvents_of_wait hs, List.append_nil]
    exact h
  | countLast t p b ht hfull =>
    simp only [switchEvents, ht, hfull, if_true]
    exact h.countLast hsw ht
  | resetIndex t p ht =>
    simp only [switchEvents, ht]
    exact h.resetIndex hsw ht
  | badAlloc t p ht => exact absurd rfl (hl t)
  | count t p b ht hfull =>
    simp only [switchEvents, ht, hfull, if_false, List.append_nil]
    obtain rfl : b = s.switches := hsw.pcs t p _ ht
    refine h.move _ t .idle rfl rfl (.inr ?_) (by rw [ht]; rfl) rfl
    simp only [System.counter, System.setQueue, onBuffer_heap, if_true, Buffer.count_countUp]
    exact hfull
  | begin t a ht =>
    simp only [switchEvents, List.append_nil]
    exact h.move (s.begin _) t (.pushing _ .claim) rfl rfl (.inl rfl) (by rw [ht]; rfl) rfl
  | claim t p ht hw =>
    simp only [switchEvents, ht, List.append_nil]
    exact h.move (s.afterClaim p) t (.pushing p _) rfl rfl (.inl rfl) (by rw [ht]; rfl) rfl
  | discard t p ht hw =>
    simp only [switchEvents, ht, List.append_nil]
    exact h.move (s.setQueue _) t (.pushing p .spin) rfl rfl (.inl rfl) (by rw [ht]; rfl) rfl
  | retry t p ht hw =>
    simp only [switchEvents, ht, List.append_nil]
    exact h.move s t (.pushing p .claim) rfl rfl (.inl rfl) (by rw [ht]; rfl) rfl
  | load t p w b ht hb =>
    simp only [switchEvents, ht, List.append_nil]
    exact h.move s t (.pushing p _) rfl rfl (.inl rfl) (by rw [ht]; rfl) rfl
  | construct t p b w ht =>
    simp only [switchEvents, ht, List.append_nil]
    exact h.move (s.afterConstruct p b w) t (.pushing p _) rfl rfl
      (.inl (counter_onBuffer (f := (·.construct w p)) rfl)) (by rw [ht]; rfl) rfl
  | publish t p b w ht =>
    simp only [switchEvents, ht, List.append_nil]
    exact h.move (s.setQueue _) t (.pushing p _) rfl rfl
      (.inl (counter_onBuffer (Buffer.count_publish _ (hsw.pcs t p _ ht).2))) (by rw [ht]; rfl) rfl
  | unlock t p ht =>
    simp only [switchEvents, ht, List.append_nil]
    exact h.move (s.setQueue _) t .idle rfl rfl (.inl rfl) (by rw [ht]; rfl) rfl
  | lock t p ht hflag =>
    simp only [switchEvents, ht, List.append_nil]
    exact h.relayout hsw ht rfl (s.setQueue _) rfl rfl
  | alloc t p ht =>
    simp only [switchEvents, ht, List.append_nil]
    exact h.relayout hsw ht rfl (s.setQueue _) rfl rfl
  | setWriteBuffer t p next ht =>
    simp only [switchEvents, ht, List.append_nil]
    exact h.relayout hsw ht rfl (s.setQueue _) rfl rfl
  | enqueue t p next ht =>
    simp only [switchEvents, ht, List.append_nil]
    exact h.relayout hsw ht rfl (s.setQueue _) rfl rfl
  | move b c hc hcell =>
    simp only [switchEvents, List.append_nil]
    refine advance (h.congr rfl rfl ?_)
    exact congrArg BitVec.toNat (onBuffer_view Buffer.count (q := s.queue)
      (f := (·.moveOut s.queue.readIndex.toNat)) rfl s.switches)
  | pop b rest hc hb =>
    simp only [switchEvents, List.append_nil]
    refine h.congr rfl rfl ?_
    exact congrArg BitVec.toNat (onBuffer_view Buffer.count (q := s.queue)
      (f := Buffer.destroy) rfl s.switches)
  | _ =>
    simp only [switchEvents, List.append_nil]
    exact h.congr rfl rfl rfl

theorem of_reachable {guard : System T α → Label T α → Prop}
    (hguard : ∀ s l, Protocol s → guard s l → NoWrap s l ∧ Allocates s l)
    (h : ((machine T α).record switchEvents).Reachable (fun x l => guard x.1 l) (s, es)) :
    Protocol s ∧ Switched s es := by
  refine h.invariant (P := fun x => Protocol x.1 ∧ Switched x.1 x.2) ⟨.init, .init⟩ ?_
  rintro ⟨s, es⟩ l x ⟨hp, hsw⟩ hg hs
  obtain ⟨s', hs', rfl⟩ := Option.map_eq_some_iff.1 hs
  obtain ⟨hroom, hl⟩ := hguard s l hp hg
  exact ⟨hp.step hroom (Step.of_step hs'), hsw.step hp hl hs'⟩

omit [DecidableEq T] in
/-- Past the end of the buffer some thread is still to count its line or is switching. -/
theorem exists_switching (h : Switched s es) (hsw : Switching s)
    (hfull : Buffer.size ≤ s.queue.writeIndex.toNat) :
    ∃ t, s.HoldsClaim t ∨ s.IsSwitching t := by
  have hclaimed : s.claimed = Buffer.size := Nat.min_eq_right hfull
  have hcounted := hsw.counted
  by_cases hlt : s.counter < Buffer.size
  · obtain ⟨t, p, pc, hx, ht⟩ := exists_pushing_of_total_pos
      (show 0 < s.total Pc.outstanding by omega)
    have hcur : s.queue.currentWriteBuffer = some s.switches := by
      refine (hsw.settled ?_).current
      by_contra hpos
      have := hsw.full (Nat.pos_of_ne_zero hpos)
      omega
    have hat := hsw.pcs t p pc hx
    refine ⟨t, .inl ?_⟩
    cases pc with
    | load w => exact ⟨p, _, hcur, .inl ⟨w, hat, .inl hx⟩⟩
    | construct b w =>
      obtain ⟨rfl, hw⟩ := hat
      exact ⟨p, _, hcur, .inl ⟨w, hw, .inr (.inl hx)⟩⟩
    | publish b w =>
      obtain ⟨rfl, hw⟩ := hat
      exact ⟨p, _, hcur, .inl ⟨w, hw, .inr (.inr hx)⟩⟩
    | count b =>
      obtain rfl : b = s.switches := hat
      exact ⟨p, _, hcur, .inr hx⟩
    | _ => exact absurd ht (Nat.lt_irrefl 0)
  · have hcounter : s.counter = Buffer.size := by omega
    obtain ⟨t, p, pc, hx, ht⟩ := exists_pushing_of_total_pos (h.armed hcounter)
    have hle := le_total Pc.switching hx
    have := hsw.switching_le
    exact ⟨t, .inr ⟨p, pc, hx, by omega, hcounter⟩⟩

end Switched

/-- No producer is stuck: in every state with `m_writeIndex` past the end, some push is still to
count its line in the current write buffer or is switching, so not all pushes in flight spin.  And
the switches of a run are those of the buffers 0, 1, 2, …, each made once, by the push that filled
the buffer; the last one may still be under way. -/
theorem exists_switching_once [Fintype T] [DecidableEq T]
    (hcard : Fintype.card T + Buffer.size < 2 ^ 32) {s : System T α} {es : List (SwitchEvent T α)}
    (h : ((machine T α).record switchEvents).Reachable (fun x l => Allocates x.1 l) (s, es)) :
    (Buffer.size ≤ s.queue.writeIndex.toNat →
        (∃ t, s.HoldsClaim t ∨ s.IsSwitching t) ∧
          ∃ t p pc, s.producers t = .pushing p pc ∧ pc ≠ .spin) ∧
      (∀ t t', s.IsSwitching t → s.IsSwitching t' → t = t') ∧
      ∃ ps, ps.length = s.switches ∧ (es = switchLog ps ∨
        ∃ t p pc, s.producers t = .pushing p pc ∧ pc.switching = 1 ∧
          es = switchLog ps ++ [.filled s.switches p]) := by
  obtain ⟨hp, hsw⟩ := Switched.of_reachable
    (fun _ l hp hl => ⟨hp.switching.noWrap hcard l, hl⟩) h
  refine ⟨fun hfull => ?_, ?_, ?_⟩
  · obtain ⟨t, ht⟩ := hsw.exists_switching hp.switching hfull
    refine ⟨⟨t, ht⟩, t, ?_⟩
    rcases ht with ⟨p, b, -, ⟨w, -, ht | ht | ht⟩ | ht⟩ | ⟨p, pc, ht, hpc, -⟩
    · exact ⟨p, _, ht, by simp⟩
    · exact ⟨p, _, ht, by simp⟩
    · exact ⟨p, _, ht, by simp⟩
    · exact ⟨p, _, ht, by simp⟩
    · refine ⟨p, pc, ht, ?_⟩
      rintro rfl
      cases hpc
  · rintro t t' ⟨p, pc, ht, hpc, -⟩ ⟨q, pc', ht', hpc', -⟩
    exact Threads.eq_of_total_le_one hp.switching.switching_le
      (f := Producer.weight Pc.switching) (by rw [ht, weight_pushing]; omega)
      (by rw [ht', weight_pushing]; omega)
  · obtain ⟨ps, hps, hlog⟩ := hsw.log
    exact ⟨ps, hps, hlog.imp And.right id⟩

/-- A push has filled the only buffer, and somebody is to switch it. -/
theorem exists_switching_once_full : ∃ s : System Unit Unit,
    Buffer.size ≤ s.queue.writeIndex.toNat ∧ ∃ t, s.HoldsClaim t ∨ s.IsSwitching t := by
  obtain ⟨s, hs, hl⟩ := exists_level (k := Buffer.size - 1) (by decide)
  obtain ⟨s₁, hs₁, hp⟩ := exists_published hl (by decide)
  have hreach : (machine Unit Unit).Reachable Allocates s₁ :=
    (hs.trans hs₁).mono fun _ _ hg => hg.1.2
  obtain ⟨es, hes⟩ := hreach.record switchEvents
  have hfull : Buffer.size ≤ s₁.queue.writeIndex.toNat := by
    rw [hp.writeIndex]
    decide
  exact ⟨s₁, hfull, ((exists_switching_once (by decide) hes).1 hfull).1⟩

end QueueBuffer

end ZephyrLog
