import ZephyrLog.Logging.Loggers
import ZephyrLog.Logging.Steps

/-!
# Who owns a logger

A step gives a new pointer to a logger only where one exists already or the logger is new
(`Effect`), so a logger whose last pointer is gone stays without one.  `Shared` says what follows
for every logger: while a thread is inside its `add` the logger is owned, its destructor begins only
when nobody owns it, and its own steps are a run of `AsyncLogger.Safe.machine` in which every `add`
has returned before the destructor begins.
-/

namespace ZephyrLog

namespace Logging

variable {T : Type} {s s' : System T} {t u : T} {l l' : Ref} {p : Prog T} {label : Label T}

namespace System

/-! ## Where the pointers are -/

theorem mem_refs {th : Thread T} :
    l ∈ th.refs ↔ (∃ c ∈ th.cleanup, l ∈ c.refs) ∨ l ∈ th.prog.refs ∨ l ∈ th.held := by
  simp [Thread.refs]

theorem Owned.default (h : s.globals.defaultLogger = some l) : s.Owned l := .inl h

theorem Owned.prog (h : l ∈ (s.threads t).prog.refs) : s.Owned l :=
  .inr (.inr ⟨t, mem_refs.2 (.inr (.inl h))⟩)

theorem Owned.held (h : l ∈ (s.threads t).held) : s.Owned l :=
  .inr (.inr ⟨t, mem_refs.2 (.inr (.inr h))⟩)

theorem Owned.cleanup {c : Cleanup} (hc : c ∈ (s.threads t).cleanup) (h : l ∈ c.refs) :
    s.Owned l :=
  .inr (.inr ⟨t, mem_refs.2 (.inl ⟨c, hc, h⟩)⟩)

theorem Owned.of_at (h : s.At t p) (hl : l ∈ p.refs) : s.Owned l := .prog (t := t) (h.2 ▸ hl)

/-- The destructor has begun, or the thread that gave up the last pointer is about to begin it. -/
def Dying (s : System T) (l : Ref) : Prop :=
  (s.loggers l).impl.Ending ∨ ∃ t, .destroy l ∈ (s.threads t).cleanup

/-- Names do not change. -/
theorem name_update {x : Logger T} (h : x.name = (s.loggers l).name) (l' : Ref) :
    (Function.update s.loggers l x l').name = (s.loggers l').name := by
  by_cases hl : l' = l
  · subst hl
    rwa [Function.update_self]
  · rw [Function.update_of_ne hl]

theorem setImpl_name {m : Impl T} (l' : Ref) :
    ((s.setImpl l m).loggers l').name = (s.loggers l').name :=
  name_update (x := { s.loggers l with impl := m }) rfl l'

theorem closeWriter_name (l' : Ref) : ((s.closeWriter l).loggers l').name = (s.loggers l').name :=
  name_update (x := { s.loggers l with writer := (s.loggers l).writer.close }) rfl l'

theorem write_name (line : Text) (l' : Ref) :
    ((s.write l line).loggers l').name = (s.loggers l').name :=
  name_update (x := { s.loggers l with writer := ((s.loggers l).writer.write s.world line).1 })
    rfl l'

theorem setThread_self [DecidableEq T] {th : Thread T} : (s.setThread t th).threads t = th :=
  Function.update_self ..

theorem setThread_of_ne [DecidableEq T] {th : Thread T} (h : u ≠ t) :
    (s.setThread t th).threads u = s.threads u := Function.update_of_ne h ..

theorem make_loggers {name : Text} {c : Config} (h : l ≠ s.allocated) :
    (s.make name c).loggers l = s.loggers l := Function.update_of_ne h ..

theorem make_impl {name : Text} {c : Config} :
    ((s.make name c).loggers s.allocated).impl = .new T c.bufferSize := by
  simp [make]

end System

/-! ## Pointers after a step -/

/-- A pointer after a step is to a logger that was owned before or is new, entries of the registry
stay under their names, and a destructor is begun for the last pointer only. -/
structure Effect (s s' : System T) : Prop where
  default : ∀ l, s'.globals.defaultLogger = some l → s.Owned l
  entries : ∀ n l, s'.globals.registry n = some l →
    s.globals.registry n = some l ∨ (s.loggers l).name = n ∧ s.Owned l
  refs : ∀ u l, l ∈ (s'.threads u).refs →
    s.Owned l ∨ l = s.allocated ∧ s.allocated < s'.allocated
  destroys : ∀ u l, .destroy l ∈ (s'.threads u).cleanup →
    .destroy l ∈ (s.threads u).cleanup ∨ ¬ s'.Owned l ∧ s.Owned l
  names : ∀ l, l < s.allocated → (s'.loggers l).name = (s.loggers l).name
  allocated : s.allocated ≤ s'.allocated

namespace Effect

/-- A step that leaves the threads alone. -/
theorem of_threads (hthreads : s'.threads = s.threads) (hglobals : s'.globals = s.globals)
    (hnames : ∀ l, (s'.loggers l).name = (s.loggers l).name)
    (hallocated : s'.allocated = s.allocated) : Effect s s' where
  default := fun _ hl => .default (hglobals ▸ hl)
  entries := fun _ _ hl => .inl (hglobals ▸ hl)
  refs := fun u _ hl => .inl (.inr (.inr ⟨u, hthreads ▸ hl⟩))
  destroys := fun _ _ hl => .inl (hthreads ▸ hl)
  names := fun l _ => hnames l
  allocated := hallocated.ge

variable [DecidableEq T]

/-- A step of the thread `t`. -/
theorem of_thread {th : Thread T} (hthreads : s'.threads = Function.update s.threads t th)
    (hdefault : ∀ l, s'.globals.defaultLogger = some l → s.Owned l)
    (hentries : ∀ n l, s'.globals.registry n = some l →
      s.globals.registry n = some l ∨ (s.loggers l).name = n ∧ s.Owned l)
    (hnames : ∀ l, l < s.allocated → (s'.loggers l).name = (s.loggers l).name)
    (hallocated : s.allocated ≤ s'.allocated)
    (hcleanup : ∀ c ∈ th.cleanup, ∀ l ∈ c.refs, s.Owned l)
    (hprog : ∀ l ∈ th.prog.refs, s.Owned l ∨ l = s.allocated ∧ s.allocated < s'.allocated)
    (hheld : ∀ l ∈ th.held, s.Owned l)
    (hdestroys : ∀ l, .destroy l ∈ th.cleanup →
      .destroy l ∈ (s.threads t).cleanup ∨ ¬ s'.Owned l ∧ s.Owned l) : Effect s s' where
  default := hdefault
  entries := hentries
  refs := by
    intro u l hl
    rw [hthreads] at hl
    by_cases hu : u = t
    · subst hu
      rw [Function.update_self, System.mem_refs] at hl
      rcases hl with ⟨c, hc, hl⟩ | hl | hl
      · exact .inl (hcleanup c hc l hl)
      · exact hprog l hl
      · exact .inl (hheld l hl)
    · rw [Function.update_of_ne hu] at hl
      exact .inl (.inr (.inr ⟨u, hl⟩))
  destroys := by
    intro u l hl
    rw [hthreads] at hl
    by_cases hu : u = t
    · subst hu
      rw [Function.update_self] at hl
      exact hdestroys l hl
    · rw [Function.update_of_ne hu] at hl
      exact .inl hl
  names := hnames
  allocated := hallocated

/-- A step of the thread `t` that goes on with `p` and lets `refs` go out of scope. -/
theorem of_goto {refs : List Ref} (hthreads : s'.threads = (s.goto t p refs).threads)
    (hdefault : ∀ l, s'.globals.defaultLogger = some l → s.Owned l)
    (hentries : ∀ n l, s'.globals.registry n = some l →
      s.globals.registry n = some l ∨ (s.loggers l).name = n ∧ s.Owned l)
    (hnames : ∀ l, l < s.allocated → (s'.loggers l).name = (s.loggers l).name)
    (hallocated : s.allocated ≤ s'.allocated) (hrefs : ∀ l ∈ refs, s.Owned l)
    (hprog : ∀ l ∈ p.refs, s.Owned l ∨ l = s.allocated ∧ s.allocated < s'.allocated) :
    Effect s s' := by
  refine of_thread hthreads hdefault hentries hnames hallocated ?_ hprog (fun l hl => .held hl) ?_
  · simp only [List.mem_map]
    rintro c ⟨r, hr, rfl⟩ l hl
    rw [List.mem_singleton.1 hl]
    exact hrefs r hr
  · simp

/-- The same, where globals and names stay as they are. -/
theorem of_goto_only {refs : List Ref} (hthreads : s'.threads = (s.goto t p refs).threads)
    (hdefault : s'.globals.defaultLogger = s.globals.defaultLogger)
    (hregistry : s'.globals.registry = s.globals.registry)
    (hnames : ∀ l, (s'.loggers l).name = (s.loggers l).name)
    (hallocated : s'.allocated = s.allocated) (hrefs : ∀ l ∈ refs, s.Owned l)
    (hprog : ∀ l ∈ p.refs, s.Owned l) : Effect s s' :=
  of_goto hthreads (fun _ hl => .default (hdefault ▸ hl)) (fun _ _ hl => .inl (hregistry ▸ hl))
    (fun l _ => hnames l) hallocated.ge hrefs (fun l hl => .inl (hprog l hl))

/-- A step that loads the default logger. -/
theorem of_load (found : Ref → Prog T) (hfound : ∀ l, (found l).refs = [l]) (hp : p.refs = []) :
    Effect s (s.goto t (match s.globals.defaultLogger with
      | some l => found l
      | none => p) []) := by
  refine of_goto_only rfl rfl rfl (fun _ => rfl) rfl (by simp) (fun r hr => ?_)
  cases hd : s.globals.defaultLogger with
  | none => simp [hd, hp] at hr
  | some l =>
    simp only [hd, hfound] at hr
    exact .default (List.mem_singleton.1 hr ▸ hd)

/-- A call that constructs a logger. -/
theorem of_make {name : Text} {c : Config} {next : Next} :
    Effect s ((s.make name c).goto t (.construct s.allocated next) []) := by
  refine of_goto rfl (fun _ hl => .default hl) (fun _ _ hl => .inl hl) (fun l hl => ?_)
    (Nat.le_succ _) (by simp) (fun l hl => .inr ⟨List.mem_singleton.1 hl, Nat.lt_succ_self _⟩)
  exact congrArg Logger.name (System.make_loggers hl.ne)

/-- A step of the thread `t` that takes the first pointer or operation off its list. -/
theorem of_cleanup {c : Cleanup} {rest : List Cleanup}
    (h : (s.threads t).cleanup = c :: rest)
    (hthreads : s'.threads = (s.setCleanup t rest).threads)
    (hglobals : s'.globals = s.globals)
    (hnames : ∀ l, (s'.loggers l).name = (s.loggers l).name)
    (hallocated : s'.allocated = s.allocated) : Effect s s' := by
  refine of_thread hthreads (fun _ hl => .default (hglobals ▸ hl))
    (fun _ _ hl => .inl (hglobals ▸ hl)) (fun l _ => hnames l) hallocated.ge (fun c' hc' l hl => ?_)
    (fun l hl => .inl (.prog hl)) (fun l hl => .held hl) (fun l hl => .inl ?_)
  · exact .cleanup (h ▸ List.mem_cons_of_mem c hc') hl
  · exact h ▸ List.mem_cons_of_mem c hl

/-- The last pointer to `l` goes out of scope. -/
theorem of_releaseLast {rest : List Cleanup} (h : (s.threads t).cleanup = .release l :: rest)
    (ho : ¬ (s.setCleanup t rest).Owned l) :
    Effect s (s.setCleanup t (.destroy l :: .shutDown l :: .join l :: rest)) := by
  have hl : s.Owned l :=
    .cleanup (c := .release l) (h ▸ List.mem_cons_self) (List.mem_singleton_self l)
  refine of_thread rfl (fun _ hd => .default hd) (fun _ _ hr => .inl hr) (fun _ _ => rfl) le_rfl
    (fun c hc r hr => ?_) (fun r hr => .inl (.prog hr)) (fun r hr => .held hr) (fun r hr => ?_)
  · simp only [List.mem_cons] at hc
    rcases hc with rfl | rfl | rfl | hc
    · cases hr
    · cases hr
    · cases hr
    · exact .cleanup (h ▸ List.mem_cons_of_mem _ hc) hr
  · simp only [List.mem_cons, Cleanup.destroy.injEq, reduceCtorEq, false_or] at hr
    rcases hr with rfl | hr
    · refine .inr ⟨fun hown => ho ?_, hl⟩
      rcases hown with hd | hr | ⟨u, hu⟩
      · exact .inl hd
      · exact .inr (.inl hr)
      · refine .inr (.inr ⟨u, ?_⟩)
        unfold System.setCleanup at hu ⊢
        by_cases hut : u = t
        · subst hut
          rw [System.setThread_self] at hu ⊢
          simpa [Thread.refs, Cleanup.refs] using hu
        · rwa [System.setThread_of_ne hut] at hu ⊢
    · exact .inl (h ▸ List.mem_cons_of_mem _ hr)

theorem of_stepped (hnamed : ∀ n l, s.globals.registry n = some l → (s.loggers l).name = n)
    (hs : Stepped s label s') : Effect s s' := by
  have hentry (n : Text) (l : Ref) (hl : s.globals.registry n = some l) : s.Owned l :=
    .inr (.inl ((hnamed n l hl).symm ▸ hl))
  cases hs with
  | log t level line h | setLogLevel t level h =>
    exact of_goto_only rfl rfl rfl (fun _ => rfl) rfl (by simp) (by simp [Prog.refs])
  | makeDefault t c h | create t name c h => exact of_make
  | setDefaultNull t h => exact of_threads rfl rfl (fun _ => rfl) rfl
  | setDefault t l h hl =>
    refine of_goto_only rfl rfl rfl (fun _ => rfl) rfl (by simp) (fun r hr => ?_)
    exact .held (t := t) (List.mem_singleton.1 hr ▸ hl)
  | getDefault t h =>
    refine of_thread rfl (fun _ hl => .default hl) (fun _ _ hl => .inl hl) (fun _ _ => rfl) le_rfl
      (by simp) (by simp [Prog.refs]) (fun r hr => ?_) (by simp)
    rcases List.mem_append.1 hr with hd | hheld
    · exact .default (Option.mem_toList.1 hd)
    · exact .held hheld
  | drop t l h hl =>
    refine of_thread rfl (fun _ hl => .default hl) (fun _ _ hl => .inl hl) (fun _ _ => rfl) le_rfl
      ?_ (by simp [Prog.refs]) (fun r hr => .held (List.mem_of_mem_erase hr)) (by simp)
    simp only [List.mem_singleton]
    rintro c rfl r hr
    exact .held (t := t) (List.mem_singleton.1 hr ▸ hl)
  | dropEntry t name l h hl =>
    refine of_goto rfl (fun _ hd => .default hd) (fun n r hr => ?_) (fun _ _ => rfl) le_rfl
      (fun r hr => hentry name r (List.mem_singleton.1 hr ▸ hl)) (by simp [Prog.refs])
    change Function.update s.globals.registry name none n = some r at hr
    by_cases hn : n = name
    · subst hn
      simp at hr
    · rw [Function.update_of_ne hn] at hr
      exact .inl hr
  | dropDefault t l h hl =>
    refine of_goto rfl (by simp [Globals.storeDefault]) (fun _ _ hr => .inl hr) (fun _ _ => rfl)
      le_rfl (fun r hr => ?_) (by simp [Prog.refs])
    exact .default (List.mem_singleton.1 hr ▸ hl)
  | release t l rest h ho => exact of_cleanup h rfl rfl (fun _ => rfl) rfl
  | releaseLast t l rest h ho => exact of_releaseLast h ho
  | destroy t l rest m h hm | shutDown t l rest m h hm =>
    exact of_cleanup h rfl rfl System.setImpl_name rfl
  | join t l rest m h hm =>
    exact of_cleanup h rfl rfl
      (fun r => (System.closeWriter_name r).trans (System.setImpl_name r)) rfl
  | loadLevel t c h => exact of_load (.readLevel c) (fun _ => rfl) rfl
  | readLevel t c l h =>
    refine of_goto_only rfl rfl rfl (fun _ => rfl) rfl (fun r hr => ?_) (fun r hr => ?_)
    · exact .of_at h hr
    · unfold System.checked at hr
      split at hr <;> cases hr
  | readGlobalLevel t c h =>
    refine of_goto_only rfl rfl rfl (fun _ => rfl) rfl (by simp) (fun r hr => ?_)
    unfold System.checked at hr
    split at hr <;> cases hr
  | loadLogger t c h => exact of_load (.add c) (fun _ => rfl) rfl
  | add t c l m h hm =>
    exact of_goto_only rfl rfl rfl System.setImpl_name rfl (by simp) (fun r hr => .of_at h hr)
  | adding t c l m h hm ha => exact of_threads rfl rfl System.setImpl_name rfl
  | addReturned t c l m h hm ha =>
    exact of_goto_only rfl rfl rfl System.setImpl_name rfl (fun r hr => .of_at h hr)
      (by simp [Prog.refs])
  | finish t c h =>
    exact of_goto_only rfl rfl rfl (fun _ => rfl) rfl (by simp) (by simp [Prog.refs])
  | loadDefault t level h => exact of_load (.setLevel level) (fun _ => rfl) rfl
  | setLevel t level l h =>
    exact of_goto_only rfl rfl rfl (System.name_update rfl) rfl (fun r hr => .of_at h hr)
      (by simp [Prog.refs])
  | construct t l next m h hm =>
    exact of_goto_only rfl rfl rfl System.setImpl_name rfl (by simp) (fun r hr => .of_at h hr)
  | register t l next h hm =>
    have hl : s.Owned l := .of_at h (List.mem_singleton_self l)
    refine of_goto rfl (fun _ hd => .default hd) (fun n r hr => ?_) (fun _ _ => rfl) le_rfl
      (fun r hr => hentry _ r (Option.mem_toList.1 hr)) (fun r hr => .inl (.of_at h hr))
    change (s.globals.register (s.loggers l).name l).registry n = some r at hr
    rw [Globals.registry_register] at hr
    split at hr
    · next hn =>
      cases hr
      exact .inr ⟨hn.symm, hl⟩
    · exact .inl hr
  | unlockStore t l h =>
    exact of_goto_only rfl rfl rfl (fun _ => rfl) rfl (by simp) (fun r hr => .of_at h hr)
  | unlockKeep t l h =>
    refine of_thread rfl (fun _ hl => .default hl) (fun _ _ hl => .inl hl) (fun _ _ => rfl) le_rfl
      (by simp) (by simp [Prog.refs]) (fun r hr => ?_) (by simp)
    rcases List.mem_cons.1 hr with rfl | hheld
    · exact .of_at h (List.mem_singleton_self r)
    · exact .held hheld
  | store t l h =>
    refine of_goto rfl (fun r hr => ?_) (fun _ _ hr => .inl hr) (fun _ _ => rfl) le_rfl
      (fun r hr => .default (Option.mem_toList.1 hr)) (by simp [Prog.refs])
    cases hr
    exact .of_at h (List.mem_singleton_self _)
  | badAlloc t c l m h hm | work l m hl hm hp =>
    exact of_threads rfl rfl System.setImpl_name rfl
  | write l m line hl hm hp =>
    exact of_threads rfl rfl
      (fun r => (System.write_name line r).trans (System.setImpl_name r)) rfl

end Effect

/-! ## Loggers after a step -/

/-- The calls whose lines were added to `l`. -/
def System.addedTo (s : System T) (l : Ref) : List (LogCall T) :=
  (s.added.filter (·.logger = l)).map Added.call

theorem System.addedTo_congr (h : s'.added = s.added) (l : Ref) : s'.addedTo l = s.addedTo l := by
  rw [System.addedTo, h, System.addedTo]

/-- Who makes the step `il` of the logger `l` when the program goes from `s` to `s'`. -/
def Makes (s s' : System T) (l : Ref) : AsyncLogger.Label T Text → Prop
  | .add t line => ∃ c, s.At t (.add c l) ∧ s'.At t (.adding c l) ∧ line = c.line ∧
      s'.addedTo l = s.addedTo l ++ [c]
  | .produce t => (∃ c, s.At t (.adding c l)) ∧ s'.addedTo l = s.addedTo l
  | .badAlloc t => (∃ c, s.At t (.adding c l)) ∧ s'.addedTo l = s.addedTo l
  | .destroy => (∃ t, .destroy l ∈ (s.threads t).cleanup) ∧ s'.addedTo l = s.addedTo l
  | .own => s'.addedTo l = s.addedTo l
  | .work => s'.addedTo l = s.addedTo l

theorem impl_update {x : Logger T} (l' : Ref) :
    (Function.update s.loggers l x l').impl = if l' = l then x.impl else (s.loggers l').impl := by
  by_cases hl : l' = l
  · subst hl
    simp
  · simp [hl]

theorem setImpl_impl {m : Impl T} (l' : Ref) :
    ((s.setImpl l m).loggers l').impl = if l' = l then m else (s.loggers l').impl :=
  impl_update (x := { s.loggers l with impl := m }) l'

theorem impl_update_same {x : Logger T} (h : x.impl = (s.loggers l).impl) (l' : Ref) :
    (Function.update s.loggers l x l').impl = (s.loggers l').impl := by
  rw [impl_update]
  split
  · next heq => rw [h, heq]
  · rfl

theorem closeWriter_impl (l' : Ref) :
    ((s.closeWriter l).loggers l').impl = (s.loggers l').impl :=
  impl_update_same (x := { s.loggers l with writer := (s.loggers l).writer.close }) rfl l'

theorem write_impl (line : Text) (l' : Ref) :
    ((s.write l line).loggers l').impl = (s.loggers l').impl :=
  impl_update_same
    (x := { s.loggers l with writer := ((s.loggers l).writer.write s.world line).1 }) rfl l'

variable [DecidableEq T]

/-- What a step does to the logger `l`: nothing, a step of its own, or its construction. -/
def Kept (s s' : System T) (l : Ref) : Prop :=
  (s'.loggers l).impl = (s.loggers l).impl ∧ s'.addedTo l = s.addedTo l

/-- The logger `l` makes a step of its own. -/
def Moved (s s' : System T) (l : Ref) : Prop :=
  ∃ il, Makes s s' l il ∧ (s.loggers l).impl.step il = some (s'.loggers l).impl

/-- The logger `l` is constructed. -/
def Made (s s' : System T) (l : Ref) : Prop :=
  l = s.allocated ∧ s.allocated < s'.allocated ∧ s'.added = s.added ∧
    ∃ n, (s'.loggers l).impl = .new T n

theorem System.at_goto : (s.goto t p []).At t p := by
  unfold System.At System.goto
  rw [System.setThread_self]
  exact ⟨rfl, rfl⟩

/-- Only the logger `l` makes a step. -/
theorem moved_of_setImpl {m : Impl T} {il : AsyncLogger.Label T Text}
    (himpl : ∀ l', (s'.loggers l').impl = if l' = l then m else (s.loggers l').impl)
    (hm : (s.loggers l).impl.step il = some m) (hmakes : Makes s s' l il)
    (hadded : ∀ l', l' ≠ l → s'.addedTo l' = s.addedTo l') (l' : Ref) :
    Kept s s' l' ∨ Moved s s' l' ∨ Made s s' l' := by
  by_cases hl : l' = l
  · subst hl
    refine .inr (.inl ⟨il, hmakes, ?_⟩)
    rw [himpl, if_pos rfl, hm]
  · refine .inl ⟨?_, hadded l' hl⟩
    rw [himpl, if_neg hl]

/-- Only the logger `l` makes a step, and no line is added. -/
theorem moved_of_same_added {m : Impl T} {il : AsyncLogger.Label T Text}
    (himpl : ∀ l', (s'.loggers l').impl = if l' = l then m else (s.loggers l').impl)
    (hm : (s.loggers l).impl.step il = some m) (hmakes : Makes s s' l il)
    (hadded : s'.added = s.added) (l' : Ref) : Kept s s' l' ∨ Moved s s' l' ∨ Made s s' l' :=
  moved_of_setImpl himpl hm hmakes (fun r _ => System.addedTo_congr hadded r) l'

theorem made_of_make {name : Text} {c : Config} {next : Next} (l : Ref) :
    Kept s ((s.make name c).goto t (.construct s.allocated next) []) l ∨
      Moved s ((s.make name c).goto t (.construct s.allocated next) []) l ∨
      Made s ((s.make name c).goto t (.construct s.allocated next) []) l := by
  by_cases hl : l = s.allocated
  · subst hl
    refine .inr (.inr ⟨rfl, Nat.lt_succ_self _, rfl, c.bufferSize, ?_⟩)
    exact System.make_impl
  · exact .inl ⟨congrArg Logger.impl (System.make_loggers hl), rfl⟩

/-- A step leaves a logger as it is, makes a step of it, or constructs it. -/
theorem logger_cases (hs : Stepped s label s') (l : Ref) :
    Kept s s' l ∨ Moved s s' l ∨ Made s s' l := by
  cases hs with
  | makeDefault t c h => exact made_of_make l
  | create t name c h => exact made_of_make l
  | destroy t l₀ rest m h hm =>
    refine moved_of_same_added ?_ hm ?_ ?_ l
    · exact setImpl_impl
    · refine ⟨⟨t, ?_⟩, rfl⟩
      rw [h]
      exact List.mem_cons_self
    · rfl
  | shutDown t l₀ rest m h hm | construct t l₀ next m h hm | work l₀ m h hm hp =>
    refine moved_of_same_added ?_ hm ?_ ?_ l
    · exact setImpl_impl
    · exact System.addedTo_congr rfl l₀
    · rfl
  | join t l₀ rest m h hm =>
    refine moved_of_same_added ?_ hm ?_ ?_ l
    · exact fun l' => (closeWriter_impl l').trans (setImpl_impl l')
    · exact System.addedTo_congr rfl l₀
    · rfl
  | write l₀ m line hl hm hp =>
    refine moved_of_same_added ?_ hm ?_ ?_ l
    · exact fun l' => (write_impl line l').trans (setImpl_impl l')
    · exact System.addedTo_congr rfl l₀
    · rfl
  | adding t c l₀ m h hm ha | addReturned t c l₀ m h hm ha | badAlloc t c l₀ m h hm =>
    refine moved_of_same_added ?_ hm ?_ ?_ l
    · exact setImpl_impl
    · exact ⟨⟨c, h⟩, rfl⟩
    · rfl
  | add t c l₀ m h hm =>
    refine moved_of_setImpl ?_ hm ?_ ?_ l
    · exact setImpl_impl
    · refine ⟨c, h, ?_, rfl, ?_⟩
      · exact System.at_goto (s := s.setImpl l₀ m)
      · simp [System.addedTo]
    · intro l' hl'
      simp [System.addedTo, Ne.symm hl']
  | setLevel t level l₀ h =>
    exact .inl ⟨impl_update_same (x := { s.loggers l₀ with level }) rfl l, rfl⟩
  | _ => exact .inl ⟨rfl, rfl⟩

/-- A thread that is inside `add` stays there until it returns. -/
theorem adding_kept (hs : Stepped s label s') {c : LogCall T} (h : s.At u (.adding c l)) :
    s'.At u (.adding c l) ∨ ¬ (s'.loggers l).impl.Adding u := by
  have other {x : System T} (t : T) (th : Thread T)
      (hx : x.threads = Function.update s.threads t th) (hut : u ≠ t) : x.At u (.adding c l) := by
    unfold System.At
    rwa [hx, Function.update_of_ne hut]
  have idle (t : T) (hi : s.Idle t) : u ≠ t := by
    rintro rfl
    exact absurd (h.2.symm.trans hi.2) (by simp)
  have away {p : Prog T} (t : T) (hp : s.At t p) (hne : p ≠ .adding c l) : u ≠ t := by
    rintro rfl
    exact hne (hp.2.symm.trans h.2)
  have busy {e : Cleanup} {rest : List Cleanup} (t : T)
      (hc : (s.threads t).cleanup = e :: rest) : u ≠ t := by
    rintro rfl
    exact absurd (hc.symm.trans h.1) (by simp)
  cases hs with
  | log t level line hi | setLogLevel t level hi | makeDefault t c hi | create t name c hi
  | setDefault t l hi hl | getDefault t hi | drop t l hi hl | dropEntry t name l hi hl
  | dropDefault t l hi hl => exact .inl (other t _ rfl (idle t hi))
  | release t l rest hc ho | releaseLast t l rest hc ho | destroy t l rest m hc hm
  | shutDown t l rest m hc hm | join t l rest m hc hm => exact .inl (other t _ rfl (busy t hc))
  | loadLevel t c hp | readLevel t c l hp | readGlobalLevel t c hp | loadLogger t c hp
  | add t c l m hp hm | finish t c hp | loadDefault t level hp | setLevel t level l hp
  | construct t l next m hp hm | register t l next hp hm | unlockStore t l hp
  | unlockKeep t l hp | store t l hp => exact .inl (other t _ rfl (away t hp (by simp)))
  | addReturned t c' l' m hp hm ha =>
    by_cases hut : u = t
    · subst hut
      obtain ⟨rfl, rfl⟩ := Prog.adding.inj (hp.2.symm.trans h.2)
      refine .inr ?_
      show ¬ ((s.setImpl l' m).loggers l').impl.Adding u
      rwa [setImpl_impl, if_pos rfl]
    · exact .inl (other t _ rfl hut)
  | setDefaultNull t hi => exact .inl h
  | adding | badAlloc | work | write => exact .inl h

/-- A logger that a step constructs is a new one. -/
theorem new_of_step (hs : Stepped s label s') (hlt : s.allocated < s'.allocated) :
    ∃ n, (s'.loggers s.allocated).impl = .new T n := by
  cases hs with
  | makeDefault t c h => exact ⟨_, System.make_impl⟩
  | create t name c h => exact ⟨_, System.make_impl⟩
  | _ => exact absurd hlt (lt_irrefl _)

/-! ## The invariant -/

/-- What holds of every logger while the threads share it. -/
structure Shared (s : System T) : Prop where
  named : ∀ n l, s.globals.registry n = some l → (s.loggers l).name = n
  fresh : ∀ l, s.Owned l → l < s.allocated
  destroyed : ∀ t l, .destroy l ∈ (s.threads t).cleanup → l < s.allocated
  busy : ∀ l t, (s.loggers l).impl.Adding t → ∃ c, s.At t (.adding c l)
  dead : ∀ l, s.Dying l → ¬ s.Owned l
  runs : ∀ l a, (s.loggers l).impl = .safe a →
    (AsyncLogger.Safe.machine T Text).Reachable AsyncLogger.AddsReturned a

namespace Shared

theorem init (content : Text → Option (List Byte)) : Shared (System.init content : System T) where
  named := fun _ _ h => by cases h
  fresh := by
    rintro l (h | h | ⟨t, h⟩)
    · cases h
    · cases h
    · simp [System.init, Thread.refs, Prog.refs] at h
  destroyed := fun _ _ h => by cases h
  busy := fun _ _ h => absurd rfl h
  dead := by
    rintro l - (h | h | ⟨t, h⟩)
    · cases h
    · cases h
    · simp [System.init, Thread.refs, Prog.refs] at h
  runs := by
    rintro l a h
    cases h
    exact .refl

variable (h : Shared s) (hs : Stepped s label s')
include h hs

/-- No step brings a pointer back. -/
theorem owned_of_step (hl : s'.Owned l) :
    s.Owned l ∨ l = s.allocated ∧ s.allocated < s'.allocated := by
  have heffect := Effect.of_stepped h.named hs
  rcases hl with hd | hr | ⟨u, hu⟩
  · exact .inl (heffect.default l hd)
  · rcases heffect.entries _ l hr with hold | ⟨-, hl⟩
    · exact .inl (.inr (.inl ((h.named _ l hold).symm ▸ hold)))
    · exact .inl hl
  · exact heffect.refs u l hu

theorem fresh_step (hl : s'.Owned l) : l < s'.allocated := by
  rcases h.owned_of_step hs hl with hold | ⟨rfl, hlt⟩
  · exact (h.fresh l hold).trans_le (Effect.of_stepped h.named hs).allocated
  · exact hlt

theorem named_step {n : Text} (hl : s'.globals.registry n = some l) :
    (s'.loggers l).name = n := by
  have heffect := Effect.of_stepped h.named hs
  rcases heffect.entries n l hl with hold | ⟨hname, howned⟩
  · have howned : s.Owned l := .inr (.inl ((h.named n l hold).symm ▸ hold))
    rw [heffect.names l (h.fresh l howned), h.named n l hold]
  · rw [heffect.names l (h.fresh l howned), hname]

theorem destroyed_step (hl : .destroy l ∈ (s'.threads t).cleanup) : l < s'.allocated := by
  have heffect := Effect.of_stepped h.named hs
  apply Nat.lt_of_lt_of_le _ heffect.allocated
  rcases heffect.destroys t l hl with hold | ⟨-, howned⟩
  · exact h.destroyed t l hold
  · exact h.fresh l howned

theorem busy_step (ha : (s'.loggers l).impl.Adding t) : ∃ c, s'.At t (.adding c l) := by
  have hkept (hold : (s.loggers l).impl.Adding t) : ∃ c, s'.At t (.adding c l) := by
    obtain ⟨c, hc⟩ := h.busy l t hold
    exact ⟨c, (adding_kept hs hc).resolve_right (not_not.2 ha)⟩
  rcases logger_cases hs l with ⟨himpl, -⟩ | ⟨il, hmakes, hil⟩ | ⟨rfl, -, -, n, hnew⟩
  · exact hkept (himpl ▸ ha)
  · by_cases hadd : ∃ line, il = .add t line
    · obtain ⟨line, rfl⟩ := hadd
      obtain ⟨c, -, hat, -⟩ := hmakes
      exact ⟨c, hat⟩
    · simp only [not_exists] at hadd
      apply hkept
      by_contra hnot
      exact Impl.not_adding_of_step hil hadd hnot ha
  · rw [hnew] at ha
    exact absurd ha (Impl.not_adding_new n t)

theorem dead_step (hl : s'.Dying l) : ¬ s'.Owned l := by
  have hnew (hfresh : l = s.allocated ∧ s.allocated < s'.allocated) :
      ¬ (s'.loggers l).impl.Ending := by
    obtain ⟨rfl, hlt⟩ := hfresh
    obtain ⟨n, hn⟩ := new_of_step hs hlt
    rw [hn]
    exact Impl.not_ending_new n
  have hold (hd : s.Dying l) (hlt : l < s.allocated ∨ (s'.loggers l).impl.Ending) :
      ¬ s'.Owned l := by
    intro howned
    rcases h.owned_of_step hs howned with ho | hfresh
    · exact h.dead l hd ho
    · rcases hlt with hlt | hending
      · exact absurd hfresh.1 hlt.ne
      · exact hnew hfresh hending
  rcases hl with hending | ⟨u, hu⟩
  · rcases logger_cases hs l with ⟨himpl, -⟩ | ⟨il, hmakes, hil⟩ | ⟨rfl, -, -, n, hmade⟩
    · exact hold (.inl (himpl ▸ hending)) (.inr hending)
    · by_cases hdestroy : il = .destroy
      · subst hdestroy
        exact hold (.inr hmakes.1) (.inr hending)
      · exact hold (.inl ((Impl.ending_of_step hil hdestroy).1 hending)) (.inr hending)
    · rw [hmade] at hending
      exact absurd hending (Impl.not_ending_new n)
  · rcases (Effect.of_stepped h.named hs).destroys u l hu with hu | ⟨hnot, -⟩
    · exact hold (.inr ⟨u, hu⟩) (.inl (h.destroyed u l hu))
    · exact hnot

theorem runs_step {a' : AsyncLogger.Safe.System T Text} (ha : (s'.loggers l).impl = .safe a') :
    (AsyncLogger.Safe.machine T Text).Reachable AsyncLogger.AddsReturned a' := by
  rcases logger_cases hs l with ⟨himpl, -⟩ | ⟨il, hmakes, hil⟩ | ⟨rfl, -, -, n, hnew⟩
  · exact h.runs l a' (himpl ▸ ha)
  · rw [ha] at hil
    obtain ⟨a, hsafe, hstep⟩ := Impl.safe_of_step hil
    refine .tail il (h.runs l a hsafe) ⟨?_, ?_⟩ hstep
    -- the destructor begins: nobody owns the logger, so nobody is inside `add`
    · rintro rfl t
      by_contra hbusy
      obtain ⟨c, hat⟩ := h.busy l t (by rwa [hsafe])
      exact h.dead l (.inr hmakes.1) (.of_at hat (List.mem_singleton_self l))
    -- `add` begins: the thread owns the logger, so the destructor has not begun
    · rintro t line rfl
      obtain ⟨c, hat, -⟩ := hmakes
      have hending : ¬ (s.loggers l).impl.Ending := fun hending =>
        h.dead l (.inl hending) (.of_at hat (List.mem_singleton_self l))
      have howner := Impl.owner_of_not_ending hending
      rwa [hsafe] at howner
  · rw [hnew] at ha
    cases n with
    | none =>
      cases ha
      exact .refl
    | some bufferSize => cases ha

theorem step : Shared s' where
  named := fun _ _ hl => h.named_step hs hl
  fresh := fun _ hl => h.fresh_step hs hl
  destroyed := fun _ _ hl => h.destroyed_step hs hl
  busy := fun _ _ ha => h.busy_step hs ha
  dead := fun _ hl => h.dead_step hs hl
  runs := fun _ _ ha => h.runs_step hs ha

end Shared

theorem Shared.of_reachable [Fintype T] {content : Text → Option (List Byte)}
    {guard : System T → Label T → Prop} (h : (machine T content).Reachable guard s) : Shared s :=
  h.invariant (.init content) fun _ _ _ hP _ hs => hP.step (.of_step hs)

end Logging

end ZephyrLog
