import ZephyrLog.AsyncLogger.Termination
import ZephyrLog.Logging.Lifetime

/-!
# Destructors of shared loggers return

A thread that has given up the last pointer to a Safe logger comes back from the destructor under
every schedule that gives it and the logger's worker their turn again and again, whatever the other
threads and the other loggers do in between.  Seen alone, the logger goes through the end of a run
of `AsyncLogger.Safe.machine`, so the measure is the one of its destructor there.
-/

namespace ZephyrLog

namespace Logging

variable {T : Type} {s s' : System T} {t : T} {l : Ref} {label : Label T}

namespace Impl

variable {m : Impl T} [DecidableEq T]

theorem exists_destroy (ho : m.owner = .running) : ∃ m', m.step .destroy = some m' := by
  cases m with
  | quick q => exact ⟨_, if_pos ho⟩
  | safe a => exact ⟨_, congrArg (Option.map Impl.safe) (if_pos ho)⟩

theorem exists_shutDown (ho : m.owner = .destroying) :
    ∃ m', m.step .own = some m' ∧ m'.owner = .joining := by
  cases m with
  | quick q =>
    have ho' : q.owner = .destroying := ho
    exact ⟨.quick { q with owner := .joining }, by simp [step, ho'], rfl⟩
  | safe a =>
    have ho' : a.owner = .destroying := ho
    exact ⟨.safe { a with state := .shutdown, owner := .joining },
      by simp [step, AsyncLogger.step, AsyncLogger.own, ho'], rfl⟩

end Impl

/-- How far the owner of a logger is from the end of the destructor. -/
def ownerLeft : AsyncLogger.Owner → ℕ
  | .constructing => 4
  | .running => 3
  | .destroying => 2
  | .joining => 1
  | .joined => 0

/-- The destructor has stored `SHUTDOWN`. -/
def IsShutDown (o : AsyncLogger.Owner) : Prop := o = .joining ∨ o = .joined

theorem isShutDown_iff {o : AsyncLogger.Owner} : IsShutDown o ↔ ownerLeft o ≤ 1 := by
  cases o <;> simp [IsShutDown, ownerLeft]

variable [DecidableEq T]

theorem Impl.ownerLeft_lt {m m' : Impl T} {il : AsyncLogger.Label T Text}
    (h : m.step il = some m') :
    m'.owner = m.owner ∨ ownerLeft m'.owner < ownerLeft m.owner := by
  by_cases hown : il = .own
  · subst hown
    rcases own_cases h with ⟨ho, ho'⟩ | ⟨ho, ho'⟩ | ⟨ho, ho'⟩ <;>
      exact .inr (by rw [ho, ho']; decide)
  · by_cases hdestroy : il = .destroy
    · subst hdestroy
      obtain ⟨ho, ho'⟩ := owner_of_destroy h
      exact .inr (by rw [ho, ho']; decide)
    · exact .inl (owner_of_step h hown hdestroy)

theorem ownerLeft_lt (hs : Stepped s label s') (hold : l < s.allocated) :
    s'.owner l = s.owner l ∨ ownerLeft (s'.owner l) < ownerLeft (s.owner l) := by
  rcases logger_cases hs l with ⟨himpl, -⟩ | ⟨il, -, hil⟩ | ⟨rfl, -⟩
  · exact .inl (owner_of_impl himpl)
  · exact Impl.ownerLeft_lt hil
  · exact absurd hold (lt_irrefl _)

/-- The thread runs the destructor, or it has ended. -/
def DestroysOrJoined (s : System T) (t : T) (l : Ref) : Prop :=
  l < s.allocated ∧ (Destroys s t l ∨ s.owner l = .joined)

section Runs

variable [Fintype T] {content : Text → Option (List Byte)}

theorem run_reaches (s : System T) (σ : ℕ → Label T) (n : ℕ) :
    (machine T content).Reaches Machine.anyStep s ((machine T content).run s σ n) :=
  Machine.run_reaches (fun _ => trivial) n

theorem destroys_of_reaches (h : (machine T content).Reachable Machine.anyStep s)
    (hl : DestroysOrJoined s t l) (hr : (machine T content).Reaches Machine.anyStep s s') :
    DestroysOrJoined s' t l := by
  induction hr with
  | refl => exact hl
  | tail label hr _ hs ih =>
    have hreach := h.trans hr
    have hstep := Stepped.of_step hs
    have heffect := Effect.of_stepped (Shared.of_reachable hreach).named hstep
    refine ⟨ih.1.trans_le heffect.allocated, ?_⟩
    rcases ih.2 with ht | hjoined
    · exact destroys_kept (.of_reachable hreach) hstep ht
    · exact .inr ((Accounted.owner_step hstep ih.1).1 hjoined)

/-- The thread executes the next operation of the destructor. -/
theorem run_of_cleanup {c : Cleanup} {rest : List Cleanup}
    (hc : (s.threads t).cleanup = c :: rest) :
    (machine T content).step s (.run t) = s.runCleanup t rest c := by
  show s.run t = _
  rw [System.run, hc]

/-- Before `SHUTDOWN` is stored the destructor waits for nobody. -/
theorem exists_run (h : (machine T content).Reachable Machine.anyStep s) (hl : Destroys s t l)
    (ho : ¬ IsShutDown (s.owner l)) :
    ∃ u, (machine T content).step s (.run t) = some u ∧ u.owner l ≠ s.owner l := by
  obtain ⟨rest, ⟨hc, howner⟩ | ⟨hc, howner⟩ | ⟨-, howner⟩⟩ :=
    (Accounted.of_reachable h).destroys_cases (.of_reachable h) hl
  · obtain ⟨m, hm⟩ := Impl.exists_destroy howner
    refine ⟨_, (run_of_cleanup hc).trans (by rw [System.runCleanup, hm]; rfl), ?_⟩
    refine ne_of_eq_of_ne ((Destruction.owner_setImpl l).trans (if_pos rfl)) ?_
    rw [(Impl.owner_of_destroy hm).2, howner]
    decide
  · obtain ⟨m, hm, hjoining⟩ := Impl.exists_shutDown howner
    refine ⟨_, (run_of_cleanup hc).trans (by rw [System.runCleanup, hm]; rfl), ?_⟩
    refine ne_of_eq_of_ne ((Destruction.owner_setImpl l).trans (if_pos rfl)) ?_
    rw [hjoining, howner]
    decide
  · exact absurd (.inl howner) ho

variable {σ : ℕ → Label T}

/-- The destructor stores `SHUTDOWN`. -/
theorem exists_shutDown (h : (machine T content).Reachable Machine.anyStep s)
    (hl : DestroysOrJoined s t l) (hfair : Machine.Fair σ fun x => x = .run t ∨ x = .work l) :
    ∃ n, IsShutDown (((machine T content).run s σ n).owner l) := by
  refine Machine.Fair.exists_part_done Machine.anyStep (fun u : System T => u.owner l) ownerLeft
    IsShutDown (fun u x v hu _ hs => ?_) (fun u hu ho => ?_) hfair fun _ => trivial
  · exact ownerLeft_lt (.of_step hs) (destroys_of_reaches h hl hu).1
  · refine ⟨.run t, .inl rfl, fun v hv howner => ?_⟩
    have hv' := destroys_of_reaches h hl (hu.trans hv)
    rw [← howner] at ho ⊢
    exact exists_run (h.trans (hu.trans hv)) (hv'.2.resolve_right fun hj => ho (.inr hj)) ho

/-- What is left of the destructor of a Safe logger. -/
def Impl.left : Impl T → ℕ ×ₗ ℕ
  | .quick _ => toLex (0, 0)
  | .safe a => a.left

/-- The logger is Safe, and its destructor has stored `SHUTDOWN`. -/
def ShutDownSafe (m : Impl T) : Prop := ∃ a, m = .safe a ∧ IsShutDown a.owner

/-- A step of a logger after `SHUTDOWN` is one of its worker or of its destructor. -/
theorem shutDown_step (hcard : Fintype.card T + Buffer.size < 2 ^ 32)
    (h : (machine T content).Reachable Machine.anyStep s) (hold : l < s.allocated)
    (hsafe : ShutDownSafe (s.loggers l).impl) (hs : Stepped s label s') :
    ShutDownSafe (s'.loggers l).impl ∧ ((s'.loggers l).impl = (s.loggers l).impl ∨
      (s'.loggers l).impl.left < (s.loggers l).impl.left) := by
  obtain ⟨a, ha, ho⟩ := hsafe
  have hshared := Shared.of_reachable h
  have hruns := hshared.runs l a ha
  have hending : (s.loggers l).impl.Ending := by
    rw [ha]
    exact .inr ho
  rcases logger_cases hs l with ⟨himpl, -⟩ | ⟨il, hmakes, hil⟩ | ⟨rfl, -⟩
  · exact ⟨⟨a, himpl.trans ha, ho⟩, .inl himpl⟩
  · have hadd (u : T) (line : Text) : il ≠ .add u line := by
      rintro rfl
      obtain ⟨c, hat, -⟩ := hmakes
      exact hshared.dead l (.inl hending) (.of_at hat (List.mem_singleton_self l))
    have hdestroy : il ≠ .destroy := by
      rintro rfl
      obtain ⟨⟨u, hu⟩, -⟩ := hmakes
      have hrunning := (Accounted.of_reachable h).begins u l hu
      unfold System.owner at hrunning
      rw [ha] at hrunning
      rcases ho with ho | ho <;> cases ho.symm.trans hrunning
    rw [ha] at hil
    obtain ⟨a', ha', himpl⟩ := Option.map_eq_some_iff.1 hil
    rw [← himpl, ha]
    have hguard : AsyncLogger.AddsReturned a il :=
      ⟨fun hd => absurd hd hdestroy, fun u line hd => absurd hd (hadd u line)⟩
    have hworking := AsyncLogger.Safe.working hcard hruns
    refine ⟨⟨a', rfl, ?_⟩, ?_⟩
    · rw [isShutDown_iff] at ho ⊢
      rcases Impl.ownerLeft_lt hil with heq | hlt
      · rw [← himpl] at heq
        exact (congrArg ownerLeft heq).trans_le ho
      · rw [← himpl] at hlt
        exact hlt.le.trans ho
    · rcases AsyncLogger.less (QueueBuffer.lawful hcard) hworking (AsyncLogger.buffer_reaches hruns)
        (hworking.shutdown.2 ho) hguard ha' with rfl | hlt
      · exact .inl rfl
      · exact .inr hlt
  · exact absurd hold (lt_irrefl _)

/-- After `SHUTDOWN` the worker goes on, and when it has ended the thread joins it. -/
theorem shutDown_move (hcard : Fintype.card T + Buffer.size < 2 ^ 32)
    (h : (machine T content).Reachable Machine.anyStep s) (hl : DestroysOrJoined s t l)
    (hsafe : ShutDownSafe (s.loggers l).impl) (hjoined : s.owner l ≠ .joined) :
    ∃ x, (x = .run t ∨ x = .work l) ∧ ∀ s', (machine T content).Reaches Machine.anyStep s s' →
      (s'.loggers l).impl = (s.loggers l).impl →
        ∃ u, (machine T content).step s' x = some u ∧ (u.loggers l).impl ≠ (s.loggers l).impl := by
  obtain ⟨a, ha, ho⟩ := hsafe
  have hruns := (Shared.of_reachable h).runs l a ha
  have hworking := AsyncLogger.Safe.working hcard hruns
  have howner : s.owner l = a.owner := congrArg Impl.owner ha
  obtain ⟨il, a', hil, hstep, hne⟩ := AsyncLogger.goesOn (QueueBuffer.lawful hcard) hworking
    (AsyncLogger.buffer_reaches hruns) (hworking.shutdown.2 ho)
    fun hend => hjoined (howner.trans hend.1)
  have hne' : Impl.safe a' ≠ (s.loggers l).impl := fun heq =>
    hne (Impl.safe.inj (heq.trans ha))
  rcases hil with rfl | rfl
  · refine ⟨.work l, .inr rfl, fun s' hr himpl => ?_⟩
    have hm : (s'.loggers l).impl.step .work = some (.safe a') := by
      rw [himpl, ha]
      exact congrArg (Option.map Impl.safe) hstep
    have hlt := (destroys_of_reaches h hl hr).1
    cases hpending : (s'.loggers l).impl.pending with
    | none =>
      refine ⟨s'.setImpl l (.safe a'), ?_, ?_⟩
      · show System.step s' (.work l) = _
        simp only [System.step, if_pos hlt, hm, hpending, Option.map_some]
      · rwa [setImpl_impl, if_pos rfl]
    | some line =>
      refine ⟨(s'.setImpl l (.safe a')).write l line, ?_, ?_⟩
      · show System.step s' (.work l) = _
        simp only [System.step, if_pos hlt, hm, hpending, Option.map_some]
      · rwa [write_impl, setImpl_impl, if_pos rfl]
  · refine ⟨.run t, .inl rfl, fun s' hr himpl => ?_⟩
    have hm : (s'.loggers l).impl.step .own = some (.safe a') := by
      rw [himpl, ha]
      exact congrArg (Option.map Impl.safe) hstep
    have howner' : s'.owner l = a.owner := (congrArg Impl.owner himpl).trans howner
    have hd := (destroys_of_reaches h hl hr).2.resolve_right fun hj =>
      hjoined ((howner.trans howner'.symm).trans hj)
    have hr' := h.trans hr
    obtain ⟨rest, ⟨-, ho'⟩ | ⟨-, ho'⟩ | ⟨hc, -⟩⟩ :=
      (Accounted.of_reachable hr').destroys_cases (.of_reachable hr') hd
    · rcases ho with ho | ho <;> cases (howner'.symm.trans ho').symm.trans ho
    · rcases ho with ho | ho <;> cases (howner'.symm.trans ho').symm.trans ho
    · refine ⟨_, (run_of_cleanup hc).trans (by rw [System.runCleanup, hm]; rfl), ?_⟩
      refine ne_of_eq_of_ne ((closeWriter_impl l).trans (setImpl_impl l)) ?_
      rwa [if_pos rfl]

/-- A destructor that has stored `SHUTDOWN` ends. -/
theorem exists_joined (hcard : Fintype.card T + Buffer.size < 2 ^ 32)
    (h : (machine T content).Reachable Machine.anyStep s) (hl : DestroysOrJoined s t l)
    (hsafe : ShutDownSafe (s.loggers l).impl)
    (hfair : Machine.Fair σ fun x => x = .run t ∨ x = .work l) :
    ∃ n, ((machine T content).run s σ n).owner l = .joined := by
  have hkeep {u : System T} (hu : (machine T content).Reaches Machine.anyStep s u) :
      ShutDownSafe (u.loggers l).impl := by
    induction hu with
    | refl => exact hsafe
    | tail x hu _ hs ih =>
      exact (shutDown_step hcard (h.trans hu) (destroys_of_reaches h hl hu).1 ih (.of_step hs)).1
  refine Machine.Fair.exists_part_done Machine.anyStep (fun u : System T => (u.loggers l).impl)
    Impl.left (fun m => m.owner = .joined) (fun u x v hu _ hs => ?_) (fun u hu ho => ?_) hfair
    fun _ => trivial
  · exact (shutDown_step hcard (h.trans hu) (destroys_of_reaches h hl hu).1 (hkeep hu)
      (.of_step hs)).2
  · exact shutDown_move hcard (h.trans hu) (destroys_of_reaches h hl hu) (hkeep hu) ho

/-- A Safe logger that has been constructed stays one. -/
theorem safe_kept (h : (machine T content).Reachable Machine.anyStep s)
    (hr : (machine T content).Reaches Machine.anyStep s s') (hold : l < s.allocated)
    (ha : ∃ a, (s.loggers l).impl = .safe a) :
    l < s'.allocated ∧ ∃ a, (s'.loggers l).impl = .safe a := by
  induction hr with
  | refl => exact ⟨hold, ha⟩
  | tail label hr _ hs ih =>
    obtain ⟨hlt, a, ha⟩ := ih
    have hstep := Stepped.of_step hs
    have heffect := Effect.of_stepped (Shared.of_reachable (h.trans hr)).named hstep
    refine ⟨hlt.trans_le heffect.allocated, ?_⟩
    rcases logger_cases hstep l with ⟨himpl, -⟩ | ⟨il, -, hil⟩ | ⟨rfl, -⟩
    · exact ⟨a, himpl.trans ha⟩
    · rw [ha] at hil
      obtain ⟨a', -, ha'⟩ := Option.map_eq_some_iff.1 hil
      exact ⟨a', ha'.symm⟩
    · exact absurd hlt (lt_irrefl _)

/-- No line is added to a logger when a thread runs its destructor. -/
theorem addedTo_of_reaches (h : (machine T content).Reachable Machine.anyStep s)
    (hl : DestroysOrJoined s t l) (hr : (machine T content).Reaches Machine.anyStep s s') :
    s'.addedTo l = s.addedTo l := by
  induction hr with
  | refl => rfl
  | @tail u v x hu _ hs ih =>
    have hu' := h.trans hu
    have hd := destroys_of_reaches h hl hu
    have hdying : u.Dying l := hd.2.elim (Destruction.of_reachable hu').dying fun hj =>
      .inl (.inr (.inr hj))
    rcases logger_cases (.of_step hs) l with ⟨-, hsame⟩ | ⟨il, hmakes, -⟩ | ⟨rfl, -⟩
    · exact hsame.trans ih
    · cases il with
      | add y line =>
        obtain ⟨c, hat, -⟩ := hmakes
        exact absurd (.of_at hat (List.mem_singleton_self l))
          ((Shared.of_reachable hu').dead l hdying)
      | produce y | badAlloc y | destroy => exact hmakes.2.trans ih
      | work | own => exact hmakes.trans ih
    · exact absurd hd.1 (lt_irrefl _)

end Runs

/-- The destructor of a Safe logger that threads share returns: from every reachable state in which
a thread runs it, under every schedule that gives the thread and the logger's worker their turn
again and again, and the other threads and workers any turns, there is a time at which the worker
has ended and been joined, the file is closed, and the lines written are those added to the logger
before. -/
theorem shared_destructor_returns [Fintype T] (hcard : Fintype.card T + Buffer.size < 2 ^ 32)
    {content : Text → Option (List Byte)} (h : (machine T content).Reachable Machine.anyStep s)
    (hl : Destroys s t l) {a : AsyncLogger.Safe.System T Text} (ha : (s.loggers l).impl = .safe a)
    {σ : ℕ → Label T} (hfair : Machine.Fair σ fun x => x = .run t ∨ x = .work l) :
    ∃ n s' a', (machine T content).run s σ n = s' ∧ (s'.loggers l).impl = .safe a' ∧
      a'.owner = .joined ∧ a'.worker = .ended ∧ (s'.loggers l).writer.os = none ∧
      (a'.written.map (cellText QueueBuffer.Push.line)).Perm ((s.addedTo l).map LogCall.line) := by
  have hold : DestroysOrJoined s t l :=
    ⟨(Destruction.of_reachable h).allocated t l hl, .inl hl⟩
  have hrun (n : ℕ) : (machine T content).Reaches Machine.anyStep s _ := run_reaches s σ n
  obtain ⟨m, hshut⟩ := exists_shutDown h hold hfair
  obtain ⟨-, b, hb⟩ := safe_kept h (hrun m) hold.1 ⟨a, ha⟩
  obtain ⟨k, hk⟩ := exists_joined hcard (h.trans (hrun m)) (destroys_of_reaches h hold (hrun m))
    ⟨b, hb, by
      unfold System.owner at hshut
      rwa [hb] at hshut⟩ (hfair.drop m)
  rw [← Machine.run_add] at hk
  obtain ⟨hlt, a', ha'⟩ := safe_kept h (hrun (m + k)) hold.1 ⟨a, ha⟩
  have hr := h.trans (hrun (m + k))
  have hjoined : a'.owner = .joined := by
    unfold System.owner at hk
    rwa [ha'] at hk
  refine ⟨m + k, _, a', rfl, ha', hjoined,
    AsyncLogger.ended_of_joined ((Shared.of_reachable hr).runs l a' ha') hjoined,
    (Accounted.of_reachable hr).closed l hlt hk, ?_⟩
  rw [← addedTo_of_reaches h hold (hrun (m + k))]
  exact written_perm_addedTo hcard hr ha' hjoined

/-- The thread and the worker of the first logger take turns. -/
def inTurn (n : ℕ) : Label Unit := if n % 2 = 0 then .run () else .work 0

theorem fair_inTurn : Machine.Fair inTurn fun x => x = .run () ∨ x = .work 0 := by
  refine .of_periodic Nat.two_pos (fun n => by simp [inTurn]) ?_
  rintro x (rfl | rfl)
  · exact ⟨0, rfl⟩
  · exact ⟨1, rfl⟩

/-- A logger that is replaced before its worker has seen `READY`. -/
theorem shared_destructor_returns_replaced : ∃ (s : System Unit) (n : ℕ)
    (a a' : AsyncLogger.Safe.System Unit Text), (s.loggers 0).impl = .safe a ∧
    a.worker = .waitInit ∧
      (((machine Unit fun _ => none).run s inTurn n).loggers 0).impl = .safe a' ∧
      a'.owner = .joined ∧ (a'.written.map (cellText QueueBuffer.Push.line)).Perm [ascii "x"] := by
  let initializeSafe (name : Text) : Label Unit :=
    .makeDefault () ⟨none, ascii "d/", name, 1, false⟩
  obtain ⟨s, hs, hfin⟩ := Option.map_eq_some_iff.1 (show
    ((machine Unit fun _ => none).exec (.init fun _ => none)
      ([initializeSafe (ascii "f")] ++ List.replicate 4 (.run ()) ++
        [.log () .info (ascii "x")] ++ List.replicate 12 (.run ()) ++
        [initializeSafe (ascii "g")] ++ List.replicate 6 (.run ()))).map
      (fun s => (decide (.join 0 ∈ (s.threads ()).cleanup), (s.addedTo 0).map LogCall.line,
        match (s.loggers 0).impl with
          | .safe a => decide (a.worker = .waitInit)
          | .quick _ => false)) = some (true, [ascii "x"], true) by
      decide +kernel)
  simp only [Prod.mk.injEq, decide_eq_true_eq] at hfin
  obtain ⟨hdestroys, hadded, hsafe⟩ := hfin
  have h : (machine Unit fun _ => none).Reachable Machine.anyStep s :=
    .of_exec _ (fun _ _ _ => trivial) hs
  cases ha : (s.loggers 0).impl with
  | quick q => simp [ha] at hsafe
  | safe a =>
    obtain ⟨n, s', a', rfl, ha', hjoined, -, -, hwritten⟩ :=
      shared_destructor_returns (by decide) h hdestroys ha fair_inTurn
    exact ⟨s, n, a, a', ha, by simpa [ha] using hsafe, ha', hjoined, hadded ▸ hwritten⟩

end Logging

end ZephyrLog
