import ZephyrLog.Logging.Termination

/-!
# The registry mutex is given back

`g_registry[name] = logger` gives up the entry that it replaces while the mutex is held.  When that
was the last pointer, the destructor of the replaced logger runs in the critical section, and every
other thread that registers a logger waits until a worker has written all its lines.  So the mutex
is given back because destructors return: the measure is what the thread has left to release, and
one step of it, the join, takes the whole descent of `exists_joined`.
-/

namespace ZephyrLog

namespace Logging

variable {T : Type} {s s' : System T} {t u : T} {l : Ref} {next : Next} {label : Label T}

/-! ## Who holds the mutex -/

/-- The thread has to unlock `g_registryMutex`. -/
def Prog.Locked : Prog T → Prop
  | .unlock _ _ => True
  | _ => False

theorem Prog.locked_iff {p : Prog T} : p.Locked ↔ ∃ l next, p = .unlock l next := by
  cases p <;> simp [Prog.Locked]

theorem not_locked_checked (c : LogCall T) (level : LogLevel) :
    ¬ (System.checked c level).Locked := by
  unfold System.checked
  split <;> exact id

/-- The mutex is held by the thread that has to unlock it. -/
def MutexHeld (s : System T) : Prop := ∀ t, s.mutex = some t ↔ (s.threads t).prog.Locked

variable [DecidableEq T]

namespace MutexHeld

theorem of_thread {th : Thread T} (h : MutexHeld s)
    (hthreads : s'.threads = Function.update s.threads t th)
    (hself : s'.mutex = some t ↔ th.prog.Locked)
    (hother : ∀ u, u ≠ t → (s'.mutex = some u ↔ s.mutex = some u)) : MutexHeld s' := by
  intro u
  rw [hthreads]
  by_cases hut : u = t
  · subst hut
    rwa [Function.update_self]
  · rw [Function.update_of_ne hut, hother u hut, h u]

/-- A thread goes on outside the critical section. -/
theorem of_outside {th : Thread T} {p : Prog T} (h : MutexHeld s) (hp : (s.threads t).prog = p)
    (hold : ¬ p.Locked) (hthreads : s'.threads = Function.update s.threads t th)
    (hmutex : s'.mutex = s.mutex) (hnew : ¬ th.prog.Locked) : MutexHeld s' := by
  refine h.of_thread hthreads (iff_of_false (fun heq => ?_) hnew) fun u _ => by rw [hmutex]
  exact hold (hp ▸ (h t).1 (hmutex ▸ heq))

theorem step (h : MutexHeld s) (hs : Stepped s label s') : MutexHeld s' := by
  cases hs with
  | log t level line hi | setLogLevel t level hi | makeDefault t c hi | create t name c hi
  | setDefault t l hi hl | getDefault t hi | drop t l hi hl | dropEntry t name l hi hl
  | dropDefault t l hi hl => exact h.of_outside hi.2 id rfl rfl id
  | release t l rest hc ho | releaseLast t l rest hc ho | destroy t l rest m hc hm
  | shutDown t l rest m hc hm | join t l rest m hc hm =>
    exact h.of_thread rfl (h t) fun _ _ => Iff.rfl
  | loadLevel t c hp | loadLogger t c hp | loadDefault t level hp =>
    refine h.of_outside hp.2 id rfl rfl ?_
    simp only
    split <;> exact id
  | readLevel t c l hp | readGlobalLevel t c hp =>
    exact h.of_outside hp.2 id rfl rfl (not_locked_checked c _)
  | add t c l m hp hm | addReturned t c l m hp hm ha | finish t c hp | setLevel t level l hp
  | construct t l next m hp hm | store t l hp => exact h.of_outside hp.2 id rfl rfl id
  | register t l next hp hm =>
    refine h.of_thread rfl (iff_of_true rfl trivial) fun u hut => ?_
    rw [hm]
    simpa using Ne.symm hut
  | unlockStore t l hp | unlockKeep t l hp =>
    have hheld : s.mutex = some t := (h t).2 (hp.2 ▸ trivial)
    refine h.of_thread rfl (iff_of_false nofun id) fun u hut => ?_
    rw [hheld]
    simpa using Ne.symm hut
  | setDefaultNull | adding | badAlloc | work | write => exact h

theorem of_reachable [Fintype T] {content : Text → Option (List Byte)}
    {guard : System T → Label T → Prop} (h : (machine T content).Reachable guard s) :
    MutexHeld s := by
  refine h.invariant (P := MutexHeld) (fun t => ?_) fun s label s' ih _ hs => ih.step (.of_step hs)
  exact iff_of_false nofun id

end MutexHeld

/-! ## The way out of the critical section -/

/-- The logger that is released or destroyed. -/
def Cleanup.logger : Cleanup → Ref
  | .release l => l
  | .destroy l => l
  | .shutDown l => l
  | .join l => l

/-- What a pointer that goes out of scope can still cost: a release may begin a destructor. -/
def Cleanup.weight : Cleanup → ℕ
  | .release _ => 4
  | _ => 1

/-- What all the pointers that go out of scope can still cost. -/
def cleanupLeft (cleanup : List Cleanup) : ℕ := (cleanup.map Cleanup.weight).sum

/-- A thread has gone on with the pointers of `cleanup` that go out of scope. -/
structure GoneOn (cleanup cleanup' : List Cleanup) : Prop where
  less : cleanupLeft cleanup' < cleanupLeft cleanup
  loggers : ∀ c ∈ cleanup', c.logger ∈ cleanup.map Cleanup.logger

namespace GoneOn

omit [DecidableEq T] in
theorem tail (c : Cleanup) (rest : List Cleanup) : GoneOn (c :: rest) rest where
  less := by
    have hweight : 0 < c.weight := by cases c <;> simp [Cleanup.weight]
    simpa [cleanupLeft] using hweight
  loggers := fun _ hc => List.mem_map_of_mem (List.mem_cons_of_mem _ hc)

omit [DecidableEq T] in
theorem destroy (l : Ref) (rest : List Cleanup) :
    GoneOn (.release l :: rest) (.destroy l :: .shutDown l :: .join l :: rest) where
  less := by
    simp only [cleanupLeft, List.map_cons, List.sum_cons, Cleanup.weight]
    omega
  loggers := by simpa [Cleanup.logger] using fun c hc => .inr ⟨c, hc, rfl⟩

end GoneOn

/-- A step leaves the thread in the critical section where it is, or takes it on to the end of the
section, or out of it. -/
theorem locked_step (hs : Stepped s label s') (hp : (s.threads t).prog = .unlock l next) :
    s'.threads t = s.threads t ∨ s'.mutex = none ∨
      (s'.threads t).prog = .unlock l next ∧
        GoneOn (s.threads t).cleanup (s'.threads t).cleanup := by
  have other {u : T} {th : Thread T} {p : Prog T} (hu : (s.threads u).prog = p) (hne : ¬ p.Locked)
      (hthreads : s'.threads = Function.update s.threads u th) : s'.threads t = s.threads t := by
    have hut : t ≠ u := by
      rintro rfl
      exact hne (hu ▸ hp ▸ trivial)
    rw [hthreads, Function.update_of_ne hut]
  have goesOn {u : T} {cleanup rest : List Cleanup} (hc : (s.threads u).cleanup = cleanup)
      (hgone : GoneOn cleanup rest) (hthreads : s'.threads = (s.setCleanup u rest).threads) :
      s'.threads t = s.threads t ∨ s'.mutex = none ∨
        (s'.threads t).prog = .unlock l next ∧
          GoneOn (s.threads t).cleanup (s'.threads t).cleanup := by
    rw [hthreads, System.setCleanup]
    by_cases hut : t = u
    · subst hut
      rw [System.setThread_self, hc]
      exact .inr (.inr ⟨hp, hgone⟩)
    · exact .inl (System.setThread_of_ne hut)
  cases hs with
  | log u level line hi | setLogLevel u level hi | makeDefault u c hi | create u name c hi
  | setDefault u l hi hl | getDefault u hi | drop u l hi hl | dropEntry u name l hi hl
  | dropDefault u l hi hl => exact .inl (other hi.2 id rfl)
  | loadLevel u c hp | readLevel u c l hp | readGlobalLevel u c hp | loadLogger u c hp
  | add u c l m hp hm | addReturned u c l m hp hm ha | finish u c hp | loadDefault u level hp
  | setLevel u level l hp | construct u l next m hp hm | register u l next hp hm
  | store u l hp => exact .inl (other hp.2 id rfl)
  | unlockStore u l hp | unlockKeep u l hp => exact .inr (.inl rfl)
  | setDefaultNull | adding | badAlloc | work | write => exact .inl rfl
  | release u r rest hc ho => exact goesOn hc (.tail _ rest) rfl
  | releaseLast u r rest hc ho => exact goesOn hc (.destroy r rest) rfl
  | destroy u r rest m hc hm | shutDown u r rest m hc hm | join u r rest m hc hm =>
    exact goesOn hc (.tail _ rest) rfl

section Runs

variable [Fintype T] {content : Text → Option (List Byte)} {σ : ℕ → Label T}

theorem run_of_at {p : Prog T} (hat : s.At t p) :
    (machine T content).step s (.run t) = s.runProg t p := by
  show s.run t = _
  rw [System.run, hat.1, hat.2]

/-- In the critical section a thread waits for nobody, unless it joins a worker. -/
theorem exists_run_locked (h : (machine T content).Reachable Machine.anyStep s)
    (hp : (s.threads t).prog = .unlock l next)
    (hjoin : ∀ r rest, (s.threads t).cleanup ≠ .join r :: rest) :
    ∃ u, (machine T content).step s (.run t) = some u ∧ u.threads t ≠ s.threads t := by
  have out {x : System T} {th : Thread T} (hx : x.threads = Function.update s.threads t th)
      (hth : ¬ th.prog.Locked) : x.threads t ≠ s.threads t := by
    rw [hx, Function.update_self]
    rintro rfl
    exact hth (hp ▸ trivial)
  have on {x : System T} {c : Cleanup} {rest rest' : List Cleanup}
      (hc : (s.threads t).cleanup = c :: rest)
      (hx : x.threads = (s.setCleanup t rest').threads)
      (hrest : rest' ≠ c :: rest) : x.threads t ≠ s.threads t := by
    rw [hx, System.setCleanup, System.setThread_self]
    intro heq
    exact hrest ((congrArg Thread.cleanup heq).trans hc)
  have horder := (Destruction.of_reachable h).order t
  cases hc : (s.threads t).cleanup with
  | nil =>
    have hat : s.At t (.unlock l next) := ⟨hc, hp⟩
    cases next with
    | store => exact ⟨_, run_of_at hat, out rfl id⟩
    | keep => exact ⟨_, run_of_at hat, out rfl id⟩
  | cons c rest =>
    rw [hc] at horder
    cases c with
    | release r =>
      by_cases ho : (s.setCleanup t rest).Owned r
      · exact ⟨_, (run_of_cleanup hc).trans (if_pos ho), on hc rfl (List.cons_ne_self _ _).symm⟩
      · exact ⟨_, (run_of_cleanup hc).trans (if_neg ho), on hc rfl (by simp)⟩
    | destroy r =>
      have ho := (Accounted.of_reachable h).begins t r (hc ▸ List.mem_cons_self)
      obtain ⟨m, hm⟩ := Impl.exists_destroy ho
      refine ⟨_, (run_of_cleanup hc).trans (by rw [System.runCleanup, hm]; rfl), ?_⟩
      exact on hc rfl (List.cons_ne_self _ _).symm
    | shutDown r =>
      obtain ⟨m, hm, -⟩ := Impl.exists_shutDown horder.of_shutDown.1
      refine ⟨_, (run_of_cleanup hc).trans (by rw [System.runCleanup, hm]; rfl), ?_⟩
      exact on hc rfl (List.cons_ne_self _ _).symm
    | join r => exact absurd hc (hjoin r rest)

omit [DecidableEq T] [Fintype T] in
/-- A thread that has more to do with a logger than to release a pointer has to join its worker. -/
theorem InOrder.joins {owner : Ref → AsyncLogger.Owner} {cleanup : List Cleanup}
    (h : InOrder owner cleanup) {c : Cleanup} (hc : c ∈ cleanup) :
    c = .release c.logger ∨ .join c.logger ∈ cleanup := by
  have of_refs {refs : List Ref} (hmem : c ∈ refs.map .release) : c = .release c.logger := by
    obtain ⟨r, -, rfl⟩ := List.mem_map.1 hmem
    rfl
  cases h with
  | releases refs => exact .inl (of_refs hc)
  | destroy l refs =>
    rcases List.mem_cons.1 hc with rfl | hc
    · exact .inr (by simp [Cleanup.logger])
    rcases List.mem_cons.1 hc with rfl | hc
    · exact .inr (by simp [Cleanup.logger])
    rcases List.mem_cons.1 hc with rfl | hc
    · exact .inr (by simp [Cleanup.logger])
    · exact .inl (of_refs hc)
  | shutDown l refs ho =>
    rcases List.mem_cons.1 hc with rfl | hc
    · exact .inr (by simp [Cleanup.logger])
    rcases List.mem_cons.1 hc with rfl | hc
    · exact .inr (by simp [Cleanup.logger])
    · exact .inl (of_refs hc)
  | join l refs ho =>
    rcases List.mem_cons.1 hc with rfl | hc
    · exact .inr (by simp [Cleanup.logger])
    · exact .inl (of_refs hc)

/-- The loggers that a thread has still to release have been constructed. -/
theorem allocated_of_cleanup (h : (machine T content).Reachable Machine.anyStep s) {c : Cleanup}
    (hc : c ∈ (s.threads t).cleanup) : c.logger < s.allocated := by
  have hd := Destruction.of_reachable h
  rcases (hd.order t).joins hc with hrelease | hjoin
  · refine (Shared.of_reachable h).fresh c.logger (.cleanup (hrelease ▸ hc) ?_)
    exact List.mem_singleton_self _
  · exact hd.allocated t _ hjoin

/-- The thread holds the mutex, and the loggers that it releases are Safe and their workers have
their turn again and again. -/
structure Returning (content : Text → Option (List Byte)) (often : Label T → Prop) (t : T)
    (s : System T) : Prop where
  reachable : (machine T content).Reachable Machine.anyStep s
  mutex : s.mutex = some t
  safe : ∀ c ∈ (s.threads t).cleanup, ∃ a, (s.loggers c.logger).impl = .safe a
  often : ∀ c ∈ (s.threads t).cleanup, often (.work c.logger)

namespace Returning

variable {often : Label T → Prop}

/-- The thread that holds the mutex goes on. -/
theorem exists_change (hcard : Fintype.card T + Buffer.size < 2 ^ 32)
    (h : Returning content often t s) (hrun : often (.run t)) (hfair : Machine.Fair σ often) :
    ∃ n, ((machine T content).run s σ n).threads t ≠ s.threads t := by
  obtain ⟨l, next, hp⟩ := Prog.locked_iff.1 ((MutexHeld.of_reachable h.reachable t).1 h.mutex)
  by_cases hjoin : ∃ r rest, (s.threads t).cleanup = .join r :: rest
  · -- the join is the end of a descent of its own, in which other threads have their turn too
    obtain ⟨r, rest, hc⟩ := hjoin
    have hmem : .join r ∈ (s.threads t).cleanup := hc ▸ List.mem_cons_self
    have hd := Destruction.of_reachable h.reachable
    have horder := hd.order t
    rw [hc] at horder
    obtain ⟨a, ha⟩ := h.safe _ hmem
    have hjoining : a.owner = .joining := by
      rw [← horder.of_join.1, System.owner, show (s.loggers r).impl = .safe a from ha]
      rfl
    obtain ⟨n, hn⟩ := exists_joined hcard h.reachable ⟨hd.allocated t r hmem, .inl hmem⟩
      ⟨a, ha, .inl hjoining⟩ (hfair.mono fun x hx => by
        rcases hx with rfl | rfl
        · exact hrun
        · exact h.often _ hmem)
    refine ⟨n, fun heq => ?_⟩
    have horder' := (Destruction.of_reachable (h.reachable.trans (run_reaches s σ n))).order t
    rw [heq, hc] at horder'
    cases hn.symm.trans horder'.of_join.1
  · simp only [not_exists] at hjoin
    refine hfair.exists_change (fun u : System T => u.threads t) hrun fun n heq => ?_
    rw [← heq] at hp hjoin ⊢
    exact exists_run_locked (h.reachable.trans (run_reaches s σ n)) hp hjoin

/-- One step of the way out of the critical section. -/
theorem descend (hcard : Fintype.card T + Buffer.size < 2 ^ 32)
    (h : Returning content often t s) (hrun : often (.run t)) (hfair : Machine.Fair σ often) :
    ∃ n, ((machine T content).run s σ n).mutex = none ∨
      Returning content often t ((machine T content).run s σ n) ∧
        cleanupLeft (((machine T content).run s σ n).threads t).cleanup <
          cleanupLeft (s.threads t).cleanup := by
  obtain ⟨n, u, hsame, hu, hchange, hnext⟩ := Machine.Fair.exists_first_change
    (fun u : System T => u.threads t) (h.exists_change hcard hrun hfair)
  obtain ⟨l, next, hp⟩ := Prog.locked_iff.1 ((MutexHeld.of_reachable h.reachable t).1 h.mutex)
  have hreaches := (run_reaches s σ n).tail _ trivial hu
  have hreach := h.reachable.trans hreaches
  refine ⟨n + 1, ?_⟩
  rw [hnext]
  rcases locked_step (.of_step hu) (hsame ▸ hp) with heq | hfree | ⟨hp', hgone⟩
  · exact absurd (heq.trans hsame) hchange
  · exact .inl hfree
  · rw [hsame] at hgone
    refine .inr ⟨⟨hreach, ?_, fun c hc => ?_, fun c hc => ?_⟩, hgone.less⟩
    · exact (MutexHeld.of_reachable hreach t).2 (hp' ▸ trivial)
    · obtain ⟨c', hc', heq⟩ := List.mem_map.1 (hgone.loggers c hc)
      rw [← heq]
      exact (safe_kept h.reachable hreaches (allocated_of_cleanup h.reachable hc')
        (h.safe c' hc')).2
    · obtain ⟨c', hc', heq⟩ := List.mem_map.1 (hgone.loggers c hc)
      rw [← heq]
      exact h.often c' hc'

theorem exists_free (hcard : Fintype.card T + Buffer.size < 2 ^ 32)
    (h : Returning content often t s) (hrun : often (.run t)) (hfair : Machine.Fair σ often) :
    ∃ n, ((machine T content).run s σ n).mutex = none :=
  Machine.Fair.exists_of_descent Machine.anyStep (Returning content often t)
    (fun u => cleanupLeft (u.threads t).cleanup) (fun u => u.mutex = none)
    (fun _ _ hu hτ _ _ => hu.descend hcard hrun hτ) h hfair fun _ => trivial

end Returning

/-- The registry mutex is given back: from every reachable state in which a thread holds it, under
every schedule that gives this thread and the workers of the loggers that it releases in the
critical section their turn again and again, and the other threads and workers any turns, there is
a time at which nobody holds it.  The loggers released there are Safe. -/
theorem mutex_returned (hcard : Fintype.card T + Buffer.size < 2 ^ 32)
    (h : (machine T content).Reachable Machine.anyStep s) (ht : s.mutex = some t)
    (hsafe : ∀ c ∈ (s.threads t).cleanup, ∃ a, (s.loggers c.logger).impl = .safe a)
    (hfair : Machine.Fair σ fun x =>
      x = .run t ∨ ∃ c ∈ (s.threads t).cleanup, x = .work c.logger) :
    ∃ n, ((machine T content).run s σ n).mutex = none := by
  have hreturning : Returning content (fun x : Label T => x = .run t ∨
      ∃ c ∈ (s.threads t).cleanup, x = .work c.logger) t s :=
    ⟨h, ht, hsafe, fun c hc => .inr ⟨c, hc, rfl⟩⟩
  exact hreturning.exists_free hcard (.inl rfl) hfair

end Runs

/-- A thread that has replaced a logger that is no longer the default one, and waits in the critical
section for its worker, which has a line to write; another thread is about to register a logger. -/
theorem exists_replacing : ∃ s, (machine Bool fun _ => none).Reachable Machine.anyStep s ∧
    s.mutex = some false ∧ Destroys s false 0 ∧ s.At true (.register 3 .keep) ∧
    (s.addedTo 0).map LogCall.line = [ascii "x"] ∧
    ∃ a, (s.loggers 0).impl = .safe a ∧ a.written = [] ∧
      ∀ c ∈ (s.threads false).cleanup, c.logger = 0 := by
  let file (name : Text) : Config := ⟨none, ascii "d/", name, 1, false⟩
  obtain ⟨s, hs, hfin⟩ := Option.map_eq_some_iff.1 (show
    ((machine Bool fun _ => none).exec (.init fun _ => none)
      ([.makeDefault false (file (ascii "f"))] ++ List.replicate 4 (.run false) ++
        [.log false .info (ascii "x")] ++ List.replicate 12 (.run false) ++
        [.create false (ascii "b") (file (ascii "g"))] ++ List.replicate 3 (.run false) ++
        [.setDefaultLogger false (some 1)] ++ List.replicate 5 (.run false) ++
        [.makeDefault false (file (ascii "h"))] ++ List.replicate 5 (.run false) ++
        [.create true (ascii "c") (file (ascii "i")), .run true])).map
      (fun s => (decide (s.mutex = some false ∧ (s.threads false).cleanup = [.join 0] ∧
          (s.threads true).cleanup = [] ∧ (s.threads true).prog = .register 3 .keep),
        (s.addedTo 0).map LogCall.line,
        match (s.loggers 0).impl with
          | .safe a => decide (a.written = [])
          | .quick _ => false)) = some (true, [ascii "x"], true) by
      decide +kernel)
  simp only [Prod.mk.injEq, decide_eq_true_eq] at hfin
  obtain ⟨⟨hmutex, hcleanup, hidle, hprog⟩, hadded, hwritten⟩ := hfin
  have hdestroys : Destroys s false 0 := by
    unfold Destroys
    rw [hcleanup]
    exact List.mem_singleton_self _
  refine ⟨s, .of_exec _ (fun _ _ _ => trivial) hs, hmutex, hdestroys, ⟨hidle, hprog⟩, hadded, ?_⟩
  cases ha : (s.loggers 0).impl with
  | quick q => simp [ha] at hwritten
  | safe a => exact ⟨a, rfl, by simpa [ha] using hwritten, by simp [hcleanup, Cleanup.logger]⟩

/-- Both threads and the worker of the first logger take turns. -/
def inTurns (n : ℕ) : Label Bool :=
  if n % 3 = 0 then .run false else if n % 3 = 1 then .run true else .work 0

theorem fair_inTurns :
    Machine.Fair inTurns fun x => x = .run true ∨ x = .run false ∨ x = .work 0 := by
  refine .of_periodic (Nat.succ_pos 2) (fun n => by simp [inTurns]) ?_
  rintro x (rfl | rfl | rfl)
  · exact ⟨1, rfl⟩
  · exact ⟨0, rfl⟩
  · exact ⟨2, rfl⟩

/-- The worker of the replaced logger writes its line, and the mutex is free again. -/
theorem mutex_returned_replacing : ∃ (s : System Bool) (n : ℕ), s.mutex = some false ∧
    Destroys s false 0 ∧ (s.addedTo 0).map LogCall.line = [ascii "x"] ∧
    (∃ a, (s.loggers 0).impl = .safe a ∧ a.written = []) ∧
    ((machine Bool fun _ => none).run s inTurns n).mutex = none := by
  obtain ⟨s, h, hmutex, hdestroys, -, hadded, a, ha, hwritten, hlogger⟩ := exists_replacing
  have hfair : Machine.Fair inTurns fun x =>
      x = .run false ∨ ∃ c ∈ (s.threads false).cleanup, x = .work c.logger := by
    refine fair_inTurns.mono fun x hx => ?_
    rcases hx with rfl | ⟨c, hc, rfl⟩
    · exact .inr (.inl rfl)
    · exact .inr (.inr (by rw [hlogger c hc]))
  obtain ⟨n, hn⟩ := mutex_returned (by decide) h hmutex
    (fun c hc => ⟨a, (hlogger c hc).symm ▸ ha⟩) hfair
  exact ⟨s, n, hmutex, hdestroys, hadded, ⟨a, ha, hwritten⟩, hn⟩

/-! ## Threads that wait for the mutex -/

section Waiting

variable [Fintype T] {content : Text → Option (List Byte)} {σ : ℕ → Label T}

/-- The step in which the thread `t` puts the logger `l` into the registry. -/
def Registers (t : T) (l : Ref) (s s' : System T) : Prop :=
  s.mutex = none ∧ (∃ next, s.At t (.register l next)) ∧ s'.mutex = some t ∧
    s'.globals.registry (s'.loggers l).name = some l

/-- The thread registers its logger when it has its turn and the mutex is free. -/
theorem exists_registered (hat : s.At t (.register l next)) (hfree : s.mutex = none) :
    ∃ s', (machine T content).step s (.run t) = some s' :=
  ⟨_, (run_of_at hat).trans (if_pos hfree)⟩

theorem registers_of_run (hat : s.At t (.register l next))
    (hs : (machine T content).step s (.run t) = some s') : Registers t l s s' := by
  obtain ⟨hfree, hs'⟩ := Option.ite_none_right_eq_some.1 ((run_of_at hat).symm.trans hs)
  cases hs'
  exact ⟨hfree, ⟨next, hat⟩, rfl, Function.update_self ..⟩

omit [Fintype T] in
/-- A thread in a call goes on by its own steps only. -/
theorem at_kept {p : Prog T} (hs : Stepped s label s') (hat : s.At t p) (hp : p ≠ .idle) :
    s'.At t p ∨ label = .run t := by
  have other {u : T} {th : Thread T} (hthreads : s'.threads = Function.update s.threads u th)
      (hut : t ≠ u) : s'.At t p := by
    unfold System.At
    rwa [hthreads, Function.update_of_ne hut]
  have run {u : T} {th : Thread T} (hthreads : s'.threads = Function.update s.threads u th) :
      s'.At t p ∨ (Label.run u : Label T) = .run t := by
    by_cases hut : t = u
    · exact .inr (by rw [hut])
    · exact .inl (other hthreads hut)
  have idle {u : T} (hi : s.Idle u) : t ≠ u := by
    rintro rfl
    exact hp (hat.2.symm.trans hi.2)
  cases hs with
  | log u level line hi | setLogLevel u level hi | makeDefault u c hi | create u name c hi
  | setDefault u l hi hl | getDefault u hi | drop u l hi hl | dropEntry u name l hi hl
  | dropDefault u l hi hl => exact .inl (other rfl (idle hi))
  | adding | setDefaultNull | badAlloc | work | write => exact .inl hat
  | _ => exact run rfl

/-- The mutex is locked by a thread that registers a logger. -/
theorem registers_of_mutex (hs : (machine T content).step s label = some s')
    (hfree : s.mutex = none) : s'.mutex = none ∨ ∃ t l, Registers t l s s' := by
  cases Stepped.of_step hs with
  | register t l next hp hm => exact .inr ⟨t, l, registers_of_run hp hs⟩
  | unlockStore | unlockKeep => exact .inl rfl
  | _ => exact .inl hfree

/-- Threads that wait for the registry mutex do not wait for each other forever: from every
reachable state in which a thread is about to register a logger, under every schedule that gives it,
the thread that holds the mutex and the workers of the loggers that this one releases their turn
again and again, there is a time at which some thread registers a logger. -/
theorem registration_goes_on (hcard : Fintype.card T + Buffer.size < 2 ^ 32)
    (h : (machine T content).Reachable Machine.anyStep s) (hat : s.At t (.register l next))
    (hsafe : ∀ u, s.mutex = some u → ∀ c ∈ (s.threads u).cleanup,
      ∃ a, (s.loggers c.logger).impl = .safe a)
    (hfair : Machine.Fair σ fun x => x = .run t ∨ ∃ u, s.mutex = some u ∧
      (x = .run u ∨ ∃ c ∈ (s.threads u).cleanup, x = .work c.logger)) :
    ∃ n u r, Registers u r ((machine T content).run s σ n)
      ((machine T content).run s σ (n + 1)) := by
  by_contra hno
  simp only [not_exists] at hno
  -- while nobody registers a logger, the thread waits where it is
  have hwaits (n : ℕ) : ((machine T content).run s σ n).At t (.register l next) := by
    refine Machine.run_invariant (P := fun v : System T => v.At t (.register l next)) (k := 0) hat
      (fun m v ih hs => ?_) (Nat.zero_le n)
    refine (at_kept (.of_step hs) ih nofun).resolve_right fun hrun => ?_
    apply hno m t l
    rw [Machine.run_succ hs]
    exact registers_of_run ih (hrun ▸ hs)
  obtain ⟨k, hk⟩ : ∃ k, ((machine T content).run s σ k).mutex = none := by
    cases hu : s.mutex with
    | none => exact ⟨0, hu⟩
    | some u =>
      refine Returning.exists_free hcard ⟨h, hu, hsafe u hu, fun c hc => ?_⟩ ?_ hfair
      · exact .inr ⟨u, hu, .inr ⟨c, hc, rfl⟩⟩
      · exact .inr ⟨u, hu, .inl rfl⟩
  -- and once the mutex is free, it stays so until the thread has its turn
  obtain ⟨m, hm, hturn⟩ := hfair (.run t) (.inl rfl) k
  have hfree : ((machine T content).run s σ m).mutex = none := by
    refine Machine.run_invariant (P := fun v : System T => v.mutex = none) hk
      (fun m v ih hs => ?_) hm
    refine (registers_of_mutex hs ih).resolve_right ?_
    rintro ⟨u, r, hr⟩
    apply hno m u r
    rwa [Machine.run_succ hs]
  obtain ⟨v, hs⟩ : ∃ v, (machine T content).step _ (.run t) = some v :=
    exists_registered (hwaits m) hfree
  apply hno m t l
  rw [Machine.run_succ (hturn.symm ▸ hs)]
  exact registers_of_run (hwaits m) hs

end Waiting

/-- A thread that registers a logger while another one holds the mutex. -/
theorem registration_goes_on_replacing : ∃ (s : System Bool) (n : ℕ) (u : Bool) (r : Ref),
    s.mutex = some false ∧ Destroys s false 0 ∧
      Registers u r ((machine Bool fun _ => none).run s inTurns n)
        ((machine Bool fun _ => none).run s inTurns (n + 1)) := by
  obtain ⟨s, h, hmutex, hdestroys, hat, -, a, ha, -, hlogger⟩ := exists_replacing
  have hholder (u : Bool) (hu : s.mutex = some u) : u = false :=
    (Option.some.inj (hmutex.symm.trans hu)).symm
  have hfair : Machine.Fair inTurns fun x => x = .run true ∨ ∃ u, s.mutex = some u ∧
      (x = .run u ∨ ∃ c ∈ (s.threads u).cleanup, x = .work c.logger) := by
    refine fair_inTurns.mono fun x hx => ?_
    rcases hx with rfl | ⟨u, hu, rfl | ⟨c, hc, rfl⟩⟩
    · exact .inl rfl
    · exact .inr (.inl (by rw [hholder u hu]))
    · rw [hholder u hu] at hc
      exact .inr (.inr (by rw [hlogger c hc]))
  have hsafe (u : Bool) (hu : s.mutex = some u) (c : Cleanup) (hc : c ∈ (s.threads u).cleanup) :
      ∃ a, (s.loggers c.logger).impl = .safe a := by
    rw [hholder u hu] at hc
    exact ⟨a, (hlogger c hc).symm ▸ ha⟩
  obtain ⟨n, u, r, hr⟩ := registration_goes_on (by decide) h hat hsafe hfair
  exact ⟨s, n, u, r, hmutex, hdestroys, hr⟩

end Logging

end ZephyrLog
