import ZephyrLog.Logging.Persistence

/-!
# No logger is lost

A pointer that is given up is released, and the release of the last one begins the destructor.  So
a logger that has been constructed is owned, or one thread runs its destructor, or its destructor
has ended (`Accounted`).  A destructor finds a logger whose constructor has ended, since the thread
that constructs it owns it.
-/

namespace ZephyrLog

namespace Logging

variable {T : Type} {s s' : System T} {t u : T} {l : Ref} {p q : Prog T} {label : Label T}

theorem Impl.running_of_constructing {m m' : Impl T} [DecidableEq T] (h : m.step .own = some m')
    (ho : m.owner = .constructing) : m'.owner = .running := by
  rcases Impl.own_cases h with ⟨-, hnew⟩ | ⟨hold, -⟩ | ⟨hold, -⟩
  · exact hnew
  · cases ho.symm.trans hold
  · cases ho.symm.trans hold

/-! ## Pointers that stay -/

theorem refs_release (refs : List Ref) :
    (refs.map Cleanup.release).flatMap Cleanup.refs = refs := by
  induction refs with
  | nil => rfl
  | cons r refs ih => rw [List.map_cons, List.flatMap_cons, ih]; rfl

theorem refs_of_at [DecidableEq T] (h : s.At t p) :
    (s.threads t).refs = p.refs ++ (s.threads t).held := by
  rw [Thread.refs, h.1, h.2]
  rfl

/-- A pointer at the logger `l` is in `g_defaultLogger` or in the registry. -/
def System.Global (s : System T) (l : Ref) : Prop :=
  s.globals.defaultLogger = some l ∨ s.globals.registry (s.loggers l).name = some l

variable [DecidableEq T]

omit [DecidableEq T] in
theorem System.Global.owned (h : s.Global l) : s.Owned l := h.imp_right .inl

omit [DecidableEq T] in
/-- A step that leaves the global pointers alone. -/
theorem System.Global.kept (h : s.Global l)
    (hdefault : s'.globals.defaultLogger = s.globals.defaultLogger)
    (hregistry : s'.globals.registry = s.globals.registry)
    (hname : (s'.loggers l).name = (s.loggers l).name) : s'.Global l := by
  unfold System.Global at h ⊢
  rwa [hdefault, hregistry, hname]

/-- A step of the thread `t` that keeps the pointers. -/
theorem System.Owned.of_thread {th : Thread T} (hl : s.Owned l)
    (hthreads : s'.threads = Function.update s.threads t th)
    (hglobal : s.Global l → s'.Global l) (hrefs : l ∈ (s.threads t).refs → l ∈ th.refs) :
    s'.Owned l := by
  rcases hl with hd | hr | ⟨u, hu⟩
  · exact (hglobal (.inl hd)).owned
  · exact (hglobal (.inr hr)).owned
  · refine .inr (.inr ⟨u, ?_⟩)
    rw [hthreads]
    by_cases hut : u = t
    · subst hut
      rw [Function.update_self]
      exact hrefs hu
    · rwa [Function.update_of_ne hut]

/-- The thread `t` goes from `p` to `q`, and lets `refs` go out of scope. -/
theorem System.Owned.of_goto {refs : List Ref} (hl : s.Owned l) (hat : s.At t p)
    (hthreads : s'.threads = (s.goto t q refs).threads)
    (hglobal : s.Global l → s'.Global l ∨ l ∈ refs)
    (hp : l ∈ p.refs → s'.Global l ∨ l ∈ refs ∨ l ∈ q.refs) : s'.Owned l := by
  have hkept (hmem : l ∈ refs ∨ l ∈ q.refs ∨ l ∈ (s.threads t).held) : s'.Owned l := by
    refine .inr (.inr ⟨t, ?_⟩)
    rw [hthreads, System.goto, System.setThread_self, Thread.refs, refs_release, List.append_assoc,
      List.mem_append, List.mem_append]
    exact hmem
  rcases hl with hd | hr | ⟨u, hu⟩
  · exact (hglobal (.inl hd)).elim System.Global.owned fun hmem => hkept (.inl hmem)
  · exact (hglobal (.inr hr)).elim System.Global.owned fun hmem => hkept (.inl hmem)
  · by_cases hut : u = t
    · subst hut
      rw [refs_of_at hat, List.mem_append] at hu
      rcases hu with hu | hu
      · exact (hp hu).elim System.Global.owned fun hmem => hkept (hmem.imp_right .inl)
      · exact hkept (.inr (.inr hu))
    · refine .inr (.inr ⟨u, ?_⟩)
      rwa [hthreads, System.goto, System.setThread_of_ne hut]

/-- The thread `t` takes an operation for pointers that go out of scope off its list. -/
theorem System.Owned.of_cleanup {c : Cleanup} {rest : List Cleanup} (hl : s.Owned l)
    (added : List Cleanup)
    (hc : (s.threads t).cleanup = c :: rest)
    (hthreads : s'.threads = (s.setCleanup t (added ++ rest)).threads)
    (hglobal : s.Global l → s'.Global l) (hne : l ∉ c.refs) : s'.Owned l := by
  refine hl.of_thread hthreads hglobal fun hmem => ?_
  rw [System.mem_refs, hc] at hmem
  rw [System.mem_refs]
  refine hmem.imp_left fun ⟨c', hc', hl⟩ => ⟨c', List.mem_append_right _ ?_, hl⟩
  refine (List.mem_cons.1 hc').resolve_left ?_
  rintro rfl
  exact hne hl

/-- A pointer is given up by the release of the last one only. -/
theorem owned_kept (h : Shared s) (hs : Stepped s label s') (hl : s.Owned l) :
    s'.Owned l ∨ ∃ t, Destroys s' t l := by
  have hname := (Effect.of_stepped h.named hs).names l (h.fresh l hl)
  cases hs with
  | log t level line hi | setLogLevel t level hi | makeDefault t c hi | create t name c hi
  | setDefault t l₀ hi hmem =>
    exact .inl (hl.of_goto (p := .idle) hi rfl (fun hg => .inl (hg.kept rfl rfl hname))
      (by simp [Prog.refs]))
  | setDefaultNull t hi => exact .inl hl
  | getDefault t hi =>
    refine .inl (hl.of_thread rfl (fun hg => hg.kept rfl rfl hname) fun hmem => ?_)
    rw [refs_of_at (p := .idle) hi] at hmem
    exact List.mem_append_right _ (List.mem_append_right _ hmem)
  | drop t l₀ hi hmem =>
    refine .inl (hl.of_thread rfl (fun hg => hg.kept rfl rfl hname) fun hmem => ?_)
    rw [refs_of_at (p := .idle) hi] at hmem
    by_cases heq : l = l₀
    · exact List.mem_cons.2 (.inl heq)
    · exact List.mem_cons.2 (.inr ((List.mem_erase_of_ne heq).2 hmem))
  | dropEntry t name l₀ hi hl₀ =>
    refine .inl (hl.of_goto (p := .idle) hi rfl (fun hg => ?_) (by simp [Prog.refs]))
    rcases hg with hd | hr
    · exact .inl (.inl hd)
    · by_cases heq : (s.loggers l).name = name
      · rw [heq, hl₀] at hr
        exact .inr (List.mem_singleton.2 (Option.some.inj hr).symm)
      · exact .inl (.inr ((Function.update_of_ne heq _ _).trans hr))
  | dropDefault t l₀ hi hl₀ =>
    refine .inl (hl.of_goto (p := .idle) hi rfl (fun hg => ?_) (by simp [Prog.refs]))
    rcases hg with hd | hr
    · exact .inr (List.mem_singleton.2 (Option.some.inj (hd.symm.trans hl₀)))
    · exact .inl (.inr hr)
  | release t l₀ rest hc ho =>
    by_cases heq : l = l₀
    · exact .inl (heq ▸ ho)
    · exact .inl (hl.of_cleanup [] hc rfl (fun hg => hg.kept rfl rfl hname)
        (by simpa [Cleanup.refs] using heq))
  | releaseLast t l₀ rest hc ho =>
    by_cases heq : l = l₀
    · subst heq
      refine .inr ⟨t, ?_⟩
      unfold Destroys System.setCleanup
      rw [System.setThread_self]
      simp
    · exact .inl (hl.of_cleanup [.destroy l₀, .shutDown l₀, .join l₀] hc rfl
        (fun hg => hg.kept rfl rfl hname) (by simpa [Cleanup.refs] using heq))
  | destroy t l₀ rest m hc hm | shutDown t l₀ rest m hc hm | join t l₀ rest m hc hm =>
    exact .inl (hl.of_cleanup [] hc rfl (fun hg => hg.kept rfl rfl hname)
      (by simp [Cleanup.refs]))
  | loadLevel t c hp | readGlobalLevel t c hp | loadLogger t c hp | finish t c hp
  | loadDefault t level hp =>
    exact .inl (hl.of_goto hp rfl (fun hg => .inl (hg.kept rfl rfl hname)) (by simp [Prog.refs]))
  | readLevel t c l₀ hp | addReturned t c l₀ m hp hm ha | setLevel t level l₀ hp =>
    exact .inl (hl.of_goto hp rfl (fun hg => .inl (hg.kept rfl rfl hname))
      fun hmem => .inr (.inl hmem))
  | add t c l₀ m hp hm | construct t l₀ next m hp hm | unlockStore t l₀ hp =>
    exact .inl (hl.of_goto hp rfl (fun hg => .inl (hg.kept rfl rfl hname))
      fun hmem => .inr (.inr hmem))
  | adding t c l₀ m hp hm ha | badAlloc t c l₀ m hp hm | work l₀ m hl₀ hm hp
  | write l₀ m line hl₀ hm hp =>
    exact .inl (hl.imp id (.imp (fun hr => by rw [hname]; exact hr) id))
  | register t l₀ next hp hm =>
    refine .inl (hl.of_goto hp rfl (fun hg => ?_) fun hmem => .inr (.inr hmem))
    rcases hg with hd | hr
    · exact .inl (.inl hd)
    · by_cases heq : (s.loggers l).name = (s.loggers l₀).name
      · exact .inr (Option.mem_toList.2 (heq ▸ hr))
      · exact .inl (.inr ((Function.update_of_ne heq _ _).trans hr))
  | unlockKeep t l₀ hp =>
    refine .inl (hl.of_thread rfl (fun hg => hg.kept rfl rfl hname) fun hmem => ?_)
    rw [refs_of_at hp] at hmem
    exact hmem
  | store t l₀ hp =>
    refine .inl (hl.of_goto hp rfl (fun hg => ?_) fun hmem => .inl (.inl ?_))
    · exact hg.symm.imp .inr Option.mem_toList.2
    · exact congrArg some (List.mem_singleton.1 hmem).symm

/-! ## Destructors that go on -/

omit [DecidableEq T] in
theorem destroys_of_ne {th : Thread T} (hl : Destroys s t l) [DecidableEq T]
    (hthreads : s'.threads = Function.update s.threads u th) (hut : u ≠ t) : Destroys s' t l := by
  unfold Destroys
  rwa [hthreads, Function.update_of_ne (Ne.symm hut)]

omit [DecidableEq T] in
/-- The owner of a logger after the last step of the destructor of `r`. -/
theorem owner_closed {r : Ref} {m : Impl T} :
    ((s.setImpl r m).closeWriter r).owner l = if l = r then m.owner else s.owner l :=
  (congrArg Impl.owner (closeWriter_impl l)).trans (Destruction.owner_setImpl l)

/-- A thread that runs a destructor goes on with it until it has ended. -/
theorem destroys_kept (h : Destruction s) (hs : Stepped s label s') (hl : Destroys s t l) :
    Destroys s' t l ∨ s'.owner l = .joined := by
  have free {u : T} (hu : (s.threads u).cleanup = []) : u ≠ t := by
    rintro rfl
    unfold Destroys at hl
    simp [hu] at hl
  have next {x : System T} (u : T) {c : Cleanup} {rest : List Cleanup} (added : List Cleanup)
      (hc : (s.threads u).cleanup = c :: rest)
      (hx : x.threads = (s.setCleanup u (added ++ rest)).threads) (hne : u = t → c ≠ .join l) :
      Destroys x t l := by
    by_cases hut : u = t
    · subst hut
      unfold Destroys at hl ⊢
      rw [hx, System.setCleanup, System.setThread_self]
      rw [hc] at hl
      exact List.mem_append_right _ ((List.mem_cons.1 hl).resolve_left (hne rfl).symm)
    · exact destroys_of_ne hl hx hut
  cases hs with
  | log u level line hi | setLogLevel u level hi | makeDefault u c hi | create u name c hi
  | setDefault u l hi hmem | getDefault u hi | drop u l hi hmem | dropEntry u name l hi hmem
  | dropDefault u l hi hmem => exact .inl (destroys_of_ne hl rfl (free hi.1))
  | loadLevel u c hp | readLevel u c l hp | readGlobalLevel u c hp | loadLogger u c hp
  | add u c l m hp hm | addReturned u c l m hp hm ha | finish u c hp | loadDefault u level hp
  | setLevel u level l hp | construct u l next m hp hm | register u l next hp hm
  | unlockStore u l hp | unlockKeep u l hp | store u l hp =>
    exact .inl (destroys_of_ne hl rfl (free hp.1))
  | setDefaultNull | adding | badAlloc | work | write => exact .inl hl
  | release u l₀ rest hc ho => exact .inl (next u [] hc rfl (by simp))
  | releaseLast u l₀ rest hc ho =>
    exact .inl (next u [.destroy l₀, .shutDown l₀, .join l₀] hc rfl (by simp))
  | destroy u l₀ rest m hc hm | shutDown u l₀ rest m hc hm =>
    exact .inl (next u [] hc rfl (by simp))
  | join u l₀ rest m hc hm =>
    by_cases hl₀ : u = t ∧ l₀ = l
    · obtain ⟨rfl, rfl⟩ := hl₀
      have horder := h.order u
      rw [hc] at horder
      refine .inr (owner_closed.trans ?_)
      rw [if_pos rfl]
      exact Impl.joined_of_joining hm horder.of_join.1
    · exact .inl (next u [] hc rfl fun hut heq => hl₀ ⟨hut, Cleanup.join.inj heq⟩)

omit [DecidableEq T] in
theorem owner_of_impl (h : (s'.loggers l).impl = (s.loggers l).impl) : s'.owner l = s.owner l :=
  congrArg Impl.owner h

/-- A thread that is at the end of the constructor of a logger stays there until it is past it. -/
theorem construct_kept {next : Next} (hs : Stepped s label s') (h : s.At u (.construct l next))
    (ho : s.owner l = .constructing) :
    s'.At u (.construct l next) ∨ s'.At u (.register l next) ∧ s'.owner l = .running := by
  have other {x : System T} {t : T} {th : Thread T}
      (hx : x.threads = Function.update s.threads t th) (hut : u ≠ t) :
      x.At u (.construct l next) := by
    unfold System.At
    rwa [hx, Function.update_of_ne hut]
  have away {p : Prog T} {t : T} (hp : s.At t p) (hne : p ≠ .construct l next) : u ≠ t := by
    rintro rfl
    exact hne (hp.2.symm.trans h.2)
  have busy {e : Cleanup} {rest : List Cleanup} {t : T}
      (hc : (s.threads t).cleanup = e :: rest) : u ≠ t := by
    rintro rfl
    exact absurd (hc.symm.trans h.1) (by simp)
  cases hs with
  | log t level line hi | setLogLevel t level hi | makeDefault t c hi | create t name c hi
  | setDefault t l hi hl | getDefault t hi | drop t l hi hl | dropEntry t name l hi hl
  | dropDefault t l hi hl => exact .inl (other rfl (away (p := .idle) hi (by simp)))
  | release t l rest hc ho | releaseLast t l rest hc ho | destroy t l rest m hc hm
  | shutDown t l rest m hc hm | join t l rest m hc hm => exact .inl (other rfl (busy hc))
  | loadLevel t c hp | readLevel t c l hp | readGlobalLevel t c hp | loadLogger t c hp
  | add t c l m hp hm | addReturned t c l m hp hm ha | finish t c hp | loadDefault t level hp
  | setLevel t level l hp | register t l next hp hm | unlockStore t l hp | unlockKeep t l hp
  | store t l hp => exact .inl (other rfl (away hp (by simp)))
  | construct t l' next' m hp hm =>
    by_cases hut : u = t
    · subst hut
      obtain ⟨rfl, rfl⟩ := Prog.construct.inj (hp.2.symm.trans h.2)
      refine .inr ⟨System.at_goto (s := s.setImpl l' m), ?_⟩
      refine (Destruction.owner_setImpl l').trans ?_
      rw [if_pos rfl]
      exact Impl.running_of_constructing hm ho
    · exact .inl (other rfl hut)
  | setDefaultNull | adding | badAlloc | work | write => exact .inl h

/-- A logger that a step constructs is in the hands of a thread. -/
theorem constructs_of_new (hs : Stepped s label s') (hold : s.allocated ≤ l)
    (hlt : l < s'.allocated) : ∃ t next, s'.At t (.construct l next) := by
  cases hs with
  | makeDefault t c hi =>
    obtain rfl : l = s.allocated := Nat.le_antisymm (Nat.le_of_lt_succ hlt) hold
    exact ⟨t, .store, System.at_goto (s := s.make (ascii "default") c)⟩
  | create t name c hi =>
    obtain rfl : l = s.allocated := Nat.le_antisymm (Nat.le_of_lt_succ hlt) hold
    exact ⟨t, .keep, System.at_goto (s := s.make name c)⟩
  | _ => exact absurd (hold.trans_lt hlt) (lt_irrefl _)

/-- A logger that runs goes on running until a thread begins its destructor. -/
theorem running_step (hs : Stepped s label s') (hold : l < s.allocated)
    (ho : s.owner l = .running) : s'.owner l = .running ∨
      ∃ t rest, (s.threads t).cleanup = .destroy l :: rest ∧ (s'.threads t).cleanup = rest := by
  have of_move {r : Ref} {m : Impl T} (hm : (s.loggers r).impl.owner = .running →
      m.owner = .running) : (s.setImpl r m).owner l = .running := by
    rw [Destruction.owner_setImpl]
    split
    · next heq => exact hm (heq ▸ ho)
    · exact ho
  have not_own {m m' : Impl T} (h : m.step .own = some m') (hm : m.owner = .running) : False := by
    rcases Impl.own_cases h with ⟨ho', -⟩ | ⟨ho', -⟩ | ⟨ho', -⟩ <;> cases hm.symm.trans ho'
  cases hs with
  | makeDefault t c hi | create t name c hi =>
    exact .inl ((owner_of_impl (congrArg Logger.impl (System.make_loggers hold.ne))).trans ho)
  | destroy t r rest m hc hm =>
    by_cases heq : l = r
    · subst heq
      exact .inr ⟨t, rest, hc, congrArg Thread.cleanup System.setThread_self⟩
    · exact .inl ((Destruction.owner_setImpl l).trans ((if_neg heq).trans ho))
  | shutDown t r rest m hc hm | construct t r next m hp hm =>
    exact .inl (of_move fun hr => (not_own hm hr).elim)
  | join t r rest m hc hm =>
    refine .inl (owner_closed.trans ?_)
    split
    · next heq => exact (not_own hm (heq ▸ ho)).elim
    · exact ho
  | add t c r m hp hm | adding t c r m hp hm ha | addReturned t c r m hp hm ha
  | badAlloc t c r m hp hm | work r m hr hm hp =>
    exact .inl (of_move fun hr => (Impl.owner_of_step hm nofun nofun).trans hr)
  | write r m line hr hm hp =>
    refine .inl ((owner_of_impl (write_impl line l)).trans ?_)
    exact of_move fun hr => (Impl.owner_of_step hm nofun nofun).trans hr
  | setLevel t level r hp =>
    exact .inl ((owner_of_impl (impl_update_same (x := { s.loggers r with level }) rfl l)).trans ho)
  | _ => exact .inl ho

/-! ## Writers that are closed -/

/-- A destructor that has ended has closed the file. -/
def Closed (s : System T) (l : Ref) : Prop :=
  s.owner l = .joined → (s.loggers l).writer.os = none

omit [DecidableEq T] in
theorem Closed.congr (h : Closed s l) (howner : s'.owner l = .joined → s.owner l = .joined)
    (hwriter : s'.owner l = .joined → (s'.loggers l).writer = (s.loggers l).writer) :
    Closed s' l := fun hjoined => by rw [hwriter hjoined, h (howner hjoined)]

omit [DecidableEq T] in
/-- A step of the logger `r` that ends no destructor. -/
theorem Closed.of_move {r : Ref} {m : Impl T} (h : Closed s l)
    (hm : m.owner = .joined → (s.loggers r).impl.owner = .joined) : Closed (s.setImpl r m) l := by
  refine h.congr (fun hjoined => ?_) fun _ => setImpl_writer l
  rw [Destruction.owner_setImpl] at hjoined
  split at hjoined
  · next heq => exact heq ▸ hm hjoined
  · exact hjoined

theorem closed_step (h : Shared s) (hd : Destruction s) (hc : ∀ l < s.allocated, Closed s l)
    (hs : Stepped s label s') (hl : l < s'.allocated) : Closed s' l := by
  have of_make {t : T} {name : Text} {c : Config} {next : Next} (hmade : l < s.allocated + 1) :
      Closed ((s.make name c).goto t (.construct s.allocated next) []) l := by
    rcases Nat.lt_succ_iff_lt_or_eq.1 hmade with hold | rfl
    · have hlogger : (s.make name c).loggers l = s.loggers l := System.make_loggers hold.ne
      refine (hc l hold).congr (fun hjoined => ?_) fun _ => congrArg Logger.writer hlogger
      exact (owner_of_impl (congrArg Logger.impl hlogger)).symm.trans hjoined
    · intro hjoined
      have himpl : ((s.make name c).loggers s.allocated).impl = .new T c.bufferSize :=
        System.make_impl
      have howner := (congrArg Impl.owner himpl).symm.trans hjoined
      cases hn : c.bufferSize <;> rw [hn] at howner <;> cases howner
  cases hs with
  | makeDefault t c hi | create t name c hi => exact of_make hl
  | destroy t r rest m hcl hm =>
    exact (hc l hl).of_move fun ho => by cases ho.symm.trans (Impl.owner_of_destroy hm).2
  | shutDown t r rest m hcl hm =>
    have horder := hd.order t
    rw [hcl] at horder
    refine (hc l hl).of_move fun ho => ?_
    rcases Impl.own_cases hm with ⟨-, ho'⟩ | ⟨-, ho'⟩ | ⟨ho', -⟩
    · cases ho.symm.trans ho'
    · cases ho.symm.trans ho'
    · cases horder.of_shutDown.1.symm.trans ho'
  | construct t r next m hp hm =>
    -- the thread owns the logger, so nobody joins its worker
    refine (hc l hl).of_move fun ho => ?_
    rcases Impl.own_cases hm with ⟨-, ho'⟩ | ⟨-, ho'⟩ | ⟨ho', -⟩
    · cases ho.symm.trans ho'
    · cases ho.symm.trans ho'
    · exact absurd (.of_at hp (List.mem_singleton_self r)) (h.dead r (.inl (.inr (.inl ho'))))
  | join t r rest m hcl hm =>
    intro hjoined
    by_cases heq : l = r
    · subst heq
      simp [System.setCleanup, System.setThread, System.closeWriter, FileWriter.close]
    · refine ((hc l hl).congr (fun hj => ?_) fun _ => ?_) hjoined
      · exact (if_neg heq).symm.trans (owner_closed.symm.trans hj)
      · exact (congrArg Logger.writer (Function.update_of_ne heq _ _)).trans (setImpl_writer l)
  | add t c r m hp hm | adding t c r m hp hm ha | addReturned t c r m hp hm ha
  | badAlloc t c r m hp hm | work r m hr hm hp =>
    exact (hc l hl).of_move fun ho => by rwa [Impl.owner_of_step hm nofun nofun] at ho
  | write r m line hr hm hp =>
    have hmoved : Closed (s.setImpl r m) l := (hc l hl).of_move fun ho => by
      rwa [Impl.owner_of_step hm nofun nofun] at ho
    refine hmoved.congr (fun hj => (owner_of_impl (write_impl line l)).symm.trans hj) fun hj => ?_
    refine write_writer_of_ne (fun heq => ?_) line
    subst heq
    have hj' := (owner_of_impl (write_impl line l)).symm.trans hj
    rw [Destruction.owner_setImpl, if_pos rfl, Impl.owner_of_step hm nofun nofun] at hj'
    exact Impl.not_joined_of_work hm
      (fun a ha ho => AsyncLogger.ended_of_joined (h.runs l a ha) ho) hj'
  | setLevel t level r hp =>
    refine (hc l hl).congr (fun hj => ?_) fun _ => writer_update (x := { s.loggers r with level })
      rfl l
    exact (owner_of_impl (impl_update_same (x := { s.loggers r with level }) rfl l)).symm.trans hj
  | _ => exact hc l hl

/-! ## The invariant -/

/-- What becomes of every logger that has been constructed. -/
structure Accounted (s : System T) : Prop where
  cases : ∀ l < s.allocated, s.Owned l ∨ (∃ t, Destroys s t l) ∨ s.owner l = .joined
  constructing : ∀ l < s.allocated, s.owner l = .constructing →
    ∃ t next, s.At t (.construct l next)
  begins : ∀ t l, .destroy l ∈ (s.threads t).cleanup → s.owner l = .running
  closed : ∀ l < s.allocated, Closed s l

theorem InOrder.destroys {owner : Ref → AsyncLogger.Owner} {cleanup : List Cleanup}
    (h : InOrder owner cleanup) (hl : .destroy l ∈ cleanup) : .join l ∈ cleanup := by
  cases h with
  | releases refs => simp at hl
  | destroy l' refs =>
    obtain rfl : l = l' := by simpa using hl
    simp
  | shutDown l' refs ho => simp at hl
  | join l' refs ho => simp at hl

namespace Accounted

omit [DecidableEq T] in
theorem init (content : Text → Option (List Byte)) :
    Accounted (System.init content : System T) where
  cases := fun _ hl => absurd hl (Nat.not_lt_zero _)
  constructing := fun _ hl => absurd hl (Nat.not_lt_zero _)
  begins := fun _ _ h => by cases h
  closed := fun _ hl => absurd hl (Nat.not_lt_zero _)

/-- The owner of an old logger only goes on. -/
theorem owner_step (hs : Stepped s label s') (hold : l < s.allocated) :
    (s.owner l = .joined → s'.owner l = .joined) ∧
      (s'.owner l = .constructing → s.owner l = .constructing) := by
  rcases logger_cases hs l with ⟨himpl, -⟩ | ⟨il, -, hil⟩ | ⟨rfl, -⟩
  · rw [owner_of_impl himpl]
    exact ⟨id, id⟩
  · refine ⟨Impl.joined_of_step hil, fun ho => ?_⟩
    by_cases hown : il = .own
    · subst hown
      rcases Impl.own_cases hil with ⟨-, ho'⟩ | ⟨-, ho'⟩ | ⟨-, ho'⟩ <;> cases ho.symm.trans ho'
    · by_cases hdestroy : il = .destroy
      · subst hdestroy
        cases ho.symm.trans (Impl.owner_of_destroy hil).2
      · exact (Impl.owner_of_step hil hown hdestroy).symm.trans ho
  · exact absurd hold (lt_irrefl _)

/-- A destructor begins on a logger that runs. -/
theorem begins_step (h : Accounted s) (hshared : Shared s) (hd : Destruction s)
    (hs : Stepped s label s') (hl : .destroy l ∈ (s'.threads t).cleanup) :
    s'.owner l = .running := by
  rcases (Effect.of_stepped hshared.named hs).destroys t l hl with hold | ⟨hgone, howned⟩
  · have hdestroys := (hd.order t).destroys hold
    refine (running_step hs (hd.allocated t l hdestroys) (h.begins t l hold)).resolve_right ?_
    rintro ⟨u, rest, hu, hrest⟩
    obtain rfl : u = t :=
      hd.unique u t l ((hd.order u).destroys (hu ▸ List.mem_cons_self)) hdestroys
    have horder := hd.order u
    rw [hu] at horder
    obtain ⟨refs, hrefs⟩ := horder.of_destroy
    rw [hrest, hrefs] at hl
    simp at hl
  · have hdying : ¬ s.Dying l := fun hdying => hshared.dead l hdying howned
    have hlt := hshared.fresh l howned
    rcases Impl.owner_of_not_ending fun hending => hdying (.inl hending) with ho | ho
    · obtain ⟨u, next, hat⟩ := h.constructing l hlt ho
      rcases construct_kept hs hat ho with hat' | ⟨hat', -⟩
      · exact absurd (.of_at hat' (List.mem_singleton_self l)) hgone
      · exact absurd (.of_at hat' (List.mem_singleton_self l)) hgone
    · refine (running_step hs hlt ho).resolve_right ?_
      rintro ⟨u, rest, hu, -⟩
      exact hdying (.inr ⟨u, hu ▸ List.mem_cons_self⟩)

theorem step (h : Accounted s) (hshared : Shared s) (hd : Destruction s)
    (hs : Stepped s label s') : Accounted s' where
  cases := by
    intro l hl
    rcases Nat.lt_or_ge l s.allocated with hold | hnew
    · rcases h.cases l hold with howned | ⟨t, ht⟩ | hjoined
      · exact (owned_kept hshared hs howned).imp_right .inl
      · exact .inr ((destroys_kept hd hs ht).imp_left fun ht' => ⟨t, ht'⟩)
      · exact .inr (.inr ((owner_step hs hold).1 hjoined))
    · obtain ⟨t, next, hat⟩ := constructs_of_new hs hnew hl
      exact .inl (.of_at hat (List.mem_singleton_self l))
  constructing := by
    intro l hl ho
    rcases Nat.lt_or_ge l s.allocated with hold | hnew
    · have ho' := (owner_step hs hold).2 ho
      obtain ⟨t, next, hat⟩ := h.constructing l hold ho'
      refine ⟨t, next, (construct_kept hs hat ho').resolve_right fun hpast => ?_⟩
      cases ho.symm.trans hpast.2
    · exact constructs_of_new hs hnew hl
  begins := fun _ _ hl => h.begins_step hshared hd hs hl
  closed := fun _ hl => closed_step hshared hd h.closed hs hl

omit [DecidableEq T] in
/-- How far the destructor is that a thread runs. -/
theorem destroys_cases (h : Accounted s) (hd : Destruction s) (hl : Destroys s t l) :
    ∃ rest, ((s.threads t).cleanup = .destroy l :: .shutDown l :: .join l :: rest ∧
        s.owner l = .running) ∨
      ((s.threads t).cleanup = .shutDown l :: .join l :: rest ∧ s.owner l = .destroying) ∨
      ((s.threads t).cleanup = .join l :: rest ∧ s.owner l = .joining) := by
  have horder := hd.order t
  unfold Destroys at hl
  generalize hc : (s.threads t).cleanup = cleanup at horder hl
  cases horder with
  | releases refs => exact absurd hl (not_mem_releases refs)
  | destroy l' refs =>
    obtain rfl : l = l' := by simpa using hl
    exact ⟨_, .inl ⟨rfl, h.begins t l (hc ▸ List.mem_cons_self)⟩⟩
  | shutDown l' refs ho =>
    obtain rfl : l = l' := by simpa using hl
    exact ⟨_, .inr (.inl ⟨rfl, ho⟩)⟩
  | join l' refs ho =>
    obtain rfl : l = l' := by simpa using hl
    exact ⟨_, .inr (.inr ⟨rfl, ho⟩)⟩

theorem of_reachable [Fintype T] {content : Text → Option (List Byte)}
    {guard : System T → Label T → Prop} (h : (machine T content).Reachable guard s) :
    Accounted s := by
  induction h with
  | refl => exact .init content
  | tail label hreach hg hs ih =>
    exact ih.step (.of_reachable hreach) (.of_reachable hreach) (.of_step hs)

end Accounted

/-- Every logger is accounted for: in every reachable state a logger that has been constructed is
owned, and nobody destroys it; or no pointer to it is left, in `g_defaultLogger`, in the registry,
in a variable or at the next operation of a thread, and exactly one thread runs its destructor; or
its destructor has ended and its file is closed. -/
theorem loggers_accounted [Fintype T] {content : Text → Option (List Byte)}
    {guard : System T → Label T → Prop} (h : (machine T content).Reachable guard s)
    (hl : l < s.allocated) :
    (s.Owned l ∧ (s.owner l = .constructing ∨ s.owner l = .running) ∧ ∀ t, ¬ Destroys s t l) ∨
    (¬ s.Owned l ∧ (s.owner l = .running ∨ s.owner l = .destroying ∨ s.owner l = .joining) ∧
      ∃ t, Destroys s t l ∧ ∀ u, Destroys s u l → u = t) ∨
    (¬ s.Owned l ∧ s.owner l = .joined ∧ (s.loggers l).writer.os = none ∧
      ∀ t, ¬ Destroys s t l) := by
  have hshared := Shared.of_reachable h
  have hd := Destruction.of_reachable h
  have haccounted := Accounted.of_reachable h
  rcases haccounted.cases l hl with howned | ⟨t, ht⟩ | hjoined
  · have hdying : ¬ s.Dying l := fun hdying => hshared.dead l hdying howned
    exact .inl ⟨howned, Impl.owner_of_not_ending fun hending => hdying (.inl hending),
      fun t ht => hdying (hd.dying ht)⟩
  · refine .inr (.inl ⟨hshared.dead l (hd.dying ht), ?_, t, ht, fun u hu => hd.unique u t l hu ht⟩)
    obtain ⟨rest, ⟨-, ho⟩ | ⟨-, ho⟩ | ⟨-, ho⟩⟩ := haccounted.destroys_cases hd ht
    · exact .inl ho
    · exact .inr (.inl ho)
    · exact .inr (.inr ho)
  · refine .inr (.inr ⟨hshared.dead l (.inl (.inr (.inr hjoined))), hjoined,
      haccounted.closed l hl hjoined, fun t ht => ?_⟩)
    obtain ⟨rest, ⟨-, ho⟩ | ⟨-, ho⟩ | ⟨-, ho⟩⟩ := haccounted.destroys_cases hd ht <;>
      cases ho.symm.trans hjoined

/-- The first logger while the thread that replaced it waits for its worker, and the second one. -/
theorem loggers_accounted_replaced : ∃ s : System Unit, s.allocated = 2 ∧ s.Owned 1 ∧
    ¬ s.Owned 0 ∧ s.owner 0 = .joining ∧ ∃ t, Destroys s t 0 := by
  let initializeSafe (name : Text) : Label Unit :=
    .makeDefault () ⟨none, ascii "d/", name, 1, false⟩
  obtain ⟨s, hs, hfin⟩ := Option.map_eq_some_iff.1 (show
    ((machine Unit fun _ => none).exec (.init fun _ => none)
      ([initializeSafe (ascii "f")] ++ List.replicate 4 (.run ()) ++
        [initializeSafe (ascii "g")] ++ List.replicate 8 (.run ()))).map
      (fun s => (s.allocated, s.owner 0, decide (s.owner 1 = .running),
        decide (.join 1 ∈ (s.threads ()).cleanup))) = some (2, .joining, true, false) by
      decide +kernel)
  simp only [Prod.mk.injEq, decide_eq_true_eq, decide_eq_false_iff_not] at hfin
  obtain ⟨hallocated, hfirst, hsecond, hfree⟩ := hfin
  have h : (machine Unit fun _ => none).Reachable Machine.anyStep s :=
    .of_exec _ (fun _ _ _ => trivial) hs
  refine ⟨s, hallocated, ?_, ?_⟩
  · rcases loggers_accounted h (hallocated ▸ Nat.one_lt_two) with
      ⟨howned, -⟩ | ⟨-, -, t, ht, -⟩ | ⟨-, ho, -⟩
    · exact howned
    · exact absurd ht hfree
    · cases hsecond.symm.trans ho
  · rcases loggers_accounted h (hallocated ▸ Nat.zero_lt_two) with
      ⟨-, ho, -⟩ | ⟨hno, -, t, ht, -⟩ | ⟨-, ho, -⟩
    · rcases ho with ho | ho <;> cases hfirst.symm.trans ho
    · exact ⟨hno, hfirst, t, ht⟩
    · cases hfirst.symm.trans ho

/-- No pointer to a logger is left, and no destructor runs. -/
def System.Exited (s : System T) : Prop :=
  (∀ l, ¬ s.Owned l) ∧ ∀ t, (s.threads t).cleanup = []

omit [DecidableEq T] in
theorem Accounted.joined_of_exited (h : Accounted s) (hexit : s.Exited) (hl : l < s.allocated) :
    s.owner l = .joined := by
  rcases h.cases l hl with howned | ⟨t, ht⟩ | hjoined
  · exact absurd howned (hexit.1 l)
  · unfold Destroys at ht
    rw [hexit.2 t] at ht
    cases ht
  · exact hjoined

/-- The logger has a `QueueBuffer`. -/
def Impl.isSafe : Impl T → Bool
  | .quick _ => false
  | .safe _ => true

/-- The lines added to Safe loggers. -/
def System.safeLines (s : System T) : List Text :=
  (s.added.filter fun e => (s.loggers e.logger).impl.isSafe).map fun e => e.call.line

/-- When all destructors have ended, the Safe loggers have written the lines added to them. -/
theorem safeLines_perm [Fintype T] (hcard : Fintype.card T + Buffer.size < 2 ^ 32)
    {content : Text → Option (List Byte)} {guard : System T → Label T → Prop}
    (h : (machine T content).Reachable guard s)
    (hjoined : ∀ l < s.allocated, s.owner l = .joined) :
    s.safeLines.Perm s.linesWritten := by
  let safe := s.added.filter fun e => (s.loggers e.logger).impl.isSafe
  have hsplit :
      ((List.range s.allocated).flatMap fun l => safe.filter (·.logger = l)).Perm safe := by
    refine (flatMap_filter_perm Added.logger safe s.allocated).trans (.of_eq ?_)
    refine List.filter_eq_self.2 fun e he => ?_
    exact decide_eq_true ((Accepted.of_reachable h).loggers e (List.mem_of_mem_filter he))
  refine (hsplit.map fun e => e.call.line).symm.trans ?_
  rw [List.map_flatMap]
  refine List.Perm.flatMap_left _ fun l hl => ?_
  have howner := hjoined l (List.mem_range.1 hl)
  unfold System.owner at howner
  rw [List.filter_filter]
  cases ha : (s.loggers l).impl with
  | quick q =>
    refine .of_eq (List.map_eq_nil_iff.2 (List.filter_eq_nil_iff.2 fun e _ he => ?_))
    obtain ⟨rfl, hsafe⟩ : e.logger = l ∧ (s.loggers e.logger).impl.isSafe := by simpa using he
    rw [ha] at hsafe
    cases hsafe
  | safe a =>
    rw [ha] at howner
    refine .trans (.of_eq ?_) (written_perm_addedTo hcard h ha howner).symm
    rw [System.addedTo, List.map_map]
    refine congrArg (List.map _) (List.filter_congr fun e _ => ?_)
    by_cases heq : e.logger = l
    · subst heq
      simp [ha, Impl.isSafe]
    · simp [heq]

/-- At the end of the program nothing is left behind: when every pointer to a logger has been given
up and no destructor runs, the worker of every logger has been joined and its file is closed; and if
only spare files were opened and lines were written at the end of files only, every line added to a
Safe logger stands unbroken in a file, at a place of its own. -/
theorem exit_leaves_nothing [Fintype T] {content : Text → Option (List Byte)}
    {guard : System T → Label T → Prop} (h : (machine T content).Reachable guard s)
    (hexit : s.Exited) :
    (∀ l < s.allocated, s.owner l = .joined ∧ (s.loggers l).writer.os = none ∧
      ∀ a, (s.loggers l).impl = .safe a → a.worker = .ended) ∧
    ((machine T content).Reachable Harmless s → Fintype.card T + Buffer.size < 2 ^ 32 →
      s.world.files.HoldsEach s.safeLines ∧ ∀ line ∈ s.safeLines, s.world.files.Holds line) := by
  have haccounted := Accounted.of_reachable h
  have hjoined (l : Ref) (hl : l < s.allocated) : s.owner l = .joined :=
    haccounted.joined_of_exited hexit hl
  refine ⟨fun l hl => ⟨hjoined l hl, haccounted.closed l hl (hjoined l hl), fun a ha => ?_⟩, ?_⟩
  · have howner := hjoined l hl
    unfold System.owner at howner
    rw [ha] at howner
    exact AsyncLogger.ended_of_joined ((Shared.of_reachable h).runs _ a ha) howner
  · intro hharmless hcard
    have heach : s.world.files.HoldsEach s.safeLines :=
      (Persisted.of_reachable hharmless).lines.subperm (safeLines_perm hcard h hjoined).subperm
    exact ⟨heach, fun line hline => heach.holds hline⟩

/-- Two threads log the same line, and the program exits. -/
theorem exit_leaves_nothing_two : ∃ s : System Bool, s.allocated = 1 ∧ s.owner 0 = .joined ∧
    (s.loggers 0).writer.os = none ∧ s.world.files.HoldsEach [ascii "x", ascii "x"] := by
  obtain ⟨s, hs, hfin⟩ := Option.map_eq_some_iff.1 (show
    (((machine Bool fun _ => none).restrict Harmless).exec (.init fun _ => none)
      ([.makeDefault false ⟨none, ascii "d/", ascii "f", 1, false⟩] ++
        List.replicate 4 (.run false) ++ [.log true .info (ascii "x")] ++
        List.replicate 12 (.run true) ++ [.log false .info (ascii "x")] ++
        List.replicate 12 (.run false) ++ List.replicate 14 (.work 0) ++
        [.dropEntry true (ascii "default"), .run true, .dropDefault false] ++
        List.replicate 3 (.run false) ++ List.replicate 3 (.work 0) ++ [.run false])).map
      (fun s => (decide (s.allocated = 1 ∧ ¬ s.Owned 0 ∧ ∀ t, (s.threads t).cleanup = []),
        s.safeLines)) = some (true, [ascii "x", ascii "x"]) by
      decide +kernel)
  simp only [Prod.mk.injEq, decide_eq_true_eq] at hfin
  obtain ⟨⟨hallocated, howned, hcleanup⟩, hlines⟩ := hfin
  have h : (machine Bool fun _ => none).Reachable Harmless s := .of_restrict hs
  have hexit : s.Exited := by
    refine ⟨fun l hl => ?_, hcleanup⟩
    have hlt := (Shared.of_reachable h).fresh l hl
    rw [hallocated] at hlt
    exact howned (Nat.lt_one_iff.1 hlt ▸ hl)
  obtain ⟨hended, hheld⟩ := exit_leaves_nothing h hexit
  obtain ⟨hjoined, hclosed, -⟩ := hended 0 (hallocated ▸ Nat.zero_lt_one)
  exact ⟨s, hallocated, hjoined, hclosed, hlines ▸ (hheld h (by decide)).1⟩

end Logging

end ZephyrLog
