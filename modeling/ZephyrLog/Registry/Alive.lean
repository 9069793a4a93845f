import ZephyrLog.Lib.Lifetime
import ZephyrLog.Registry.Linearization
import ZephyrLog.Registry.Pointers

/-!
# No logger is used after its end

Every operation of the registry moves and copies the pointers of its thread, and leaves the others
alone (`Moved`); outside the registry a thread copies a pointer or gives one up.  So the loggers
pointed to are those that live (`Sound`), whatever is removed or replaced meanwhile, and the loggers
that the threads use are among them (`loggers_alive`).
-/

namespace ZephyrLog

namespace Registry

/-- The thread is in `removeLogger` after it has loaded the default. -/
def Access.Point.Removing : Access.Point → Prop
  | .clear _ _ | .erase _ _ => True
  | _ => False

/-- The logger whose name the operation reads, when `d` is the default. -/
def Access.Point.reads (d : Option Ref) : Access.Point → Option Ref
  | .insert _ _ l .store => some l
  | .loadDefault _ _ => d
  | _ => none

namespace Pointers

variable {T : Type} {s s' : System T} {t u : T} {l : Ref}

/-- The logger that a log statement uses. -/
def Statement.logger : Statement → Option Ref
  | .idle => none
  | .readLevel l _ | .add l => some l

/-! ## The pointers that one thread can change -/

/-- A pointer to `l` is in the registry, in `g_defaultLogger` or with the thread `t`. -/
def System.Local (s : System T) (t : T) (l : Ref) : Prop :=
  s.registry.defaultLogger = some l ∨ s.registry.entries (s.registry.name l) = some (some l) ∨
    l ∈ s.refs t

theorem System.owned_iff (t : T) : s.Owned l ↔ s.Local t l ∨ ∃ u, u ≠ t ∧ l ∈ s.refs u := by
  constructor
  · rintro (hd | he | ⟨u, hu⟩)
    · exact .inl (.inl hd)
    · exact .inl (.inr (.inl he))
    · by_cases hut : u = t
      · exact .inl (.inr (.inr (hut ▸ hu)))
      · exact .inr ⟨u, hut, hu⟩
  · rintro ((hd | he | ht) | ⟨u, -, hu⟩)
    · exact .inl hd
    · exact .inr (.inl he)
    · exact .inr (.inr ⟨t, ht⟩)
    · exact .inr (.inr ⟨u, hu⟩)

/-- A step of the thread `t` that moves or copies its pointers. -/
theorem System.owned_congr (hothers : ∀ u, u ≠ t → s'.refs u = s.refs u)
    (hlocal : s'.Local t l ↔ s.Local t l) : s'.Owned l ↔ s.Owned l := by
  rw [owned_iff t, owned_iff t, hlocal]
  refine or_congr Iff.rfl (exists_congr fun u => and_congr_right fun hu => ?_)
  rw [hothers u hu]

theorem entry_named [DecidableEq T] {r : Access.System T} (h : Access.Linearized r) {n : Text}
    (he : r.entries n = some (some l)) : r.name l = n ∧ l < r.allocated := by
  have hvalue := h.content.value n
  rw [he] at hvalue
  obtain hinit | ⟨op, hop, hput⟩ := Keyed.foldl_put_eq hvalue.symm
  · cases hinit
  · cases op with
    | find => cases hput
    | write name logger =>
      obtain ⟨rfl, rfl⟩ := Prod.mk.inj (Option.some.inj hput)
      exact h.named.ops _ _ hop

variable [DecidableEq T]

/-- An entry is overwritten or erased, and its pointer kept. -/
theorem entry_update {r : Access.System T} (h : Access.Linearized r) (name : Text)
    (entry : Option (Option Ref)) :
    Function.update r.entries name entry (r.name l) = some (some l) ∨
        (r.entries name).join = some l ↔
      r.name l = name ∧ entry = some (some l) ∨ r.entries (r.name l) = some (some l) := by
  have hjoin : (r.entries name).join = some l ↔ r.entries name = some (some l) :=
    Option.join_eq_some_iff
  rw [hjoin]
  by_cases hname : r.name l = name
  · subst hname
    simp
  · have hother : r.entries name ≠ some (some l) := fun he => hname (entry_named h he).1
    rw [Function.update_of_ne hname]
    simp [hname, hother]

/-- What an operation of the registry does to the pointers: the thread copies and moves some. -/
structure Moved (s : System T) (t : T) (th : Thread) (r : Access.System T) : Prop where
  others : ∀ u, u ≠ t → r.threads u = s.registry.threads u
  allocated : r.allocated = s.registry.allocated
  loaded : th.loaded ≠ none → Access.Point.Removing (r.threads t)
  pointers : ∀ l, ({ s.setThread t th with registry := r } : System T).Local t l ↔ s.Local t l

/-- The operation takes the thread from `p` to `q`. -/
theorem Moved.of_update {p q : Access.Point} {th : Thread} {r : Access.System T} (hf : s.Free t)
    (hp : s.registry.threads t = p)
    (hthreads : r.threads = Function.update s.registry.threads t q)
    (hname : r.name = s.registry.name) (hallocated : r.allocated = s.registry.allocated)
    (hloaded : th.loaded ≠ none → Access.Point.Removing q)
    (h : ∀ l, r.defaultLogger = some l ∨ r.entries (s.registry.name l) = some (some l) ∨
        l ∈ q.refs ∨ l ∈ th.cleanup ∨ th.loaded = some l ∨ l ∈ th.vars ↔
      s.registry.defaultLogger = some l ∨ s.registry.entries (s.registry.name l) = some (some l) ∨
        l ∈ p.refs ∨ (s.threads t).loaded = some l ∨ l ∈ (s.threads t).vars) :
    Moved s t th r where
  others := fun u hu => by rw [hthreads, Function.update_of_ne hu]
  allocated := hallocated
  loaded := fun hsome => by
    rw [hthreads, Function.update_self]
    exact hloaded hsome
  pointers := fun l => by
    simpa [System.Local, System.refs, System.setThread, hthreads, hname, hf.1, hp] using h l

/-- The operation moves and copies no pointer. -/
theorem Moved.of_goto {p q : Access.Point} {r : Access.System T} (hf : s.Free t)
    (hp : s.registry.threads t = p)
    (hthreads : r.threads = Function.update s.registry.threads t q)
    (hname : r.name = s.registry.name) (hallocated : r.allocated = s.registry.allocated)
    (hentries : r.entries = s.registry.entries)
    (hdefault : r.defaultLogger = s.registry.defaultLogger) (hrefs : q.refs = p.refs)
    (hloaded : (s.threads t).loaded ≠ none → Access.Point.Removing q) :
    Moved s t (s.threads t) r :=
  .of_update hf hp hthreads hname hallocated hloaded fun l => by
    simp only [hentries, hdefault, hrefs, hf.1, List.not_mem_nil, false_or]

theorem Moved.of_run (h : Access.Linearized s.registry) (hf : s.Free t)
    (hloaded : (s.threads t).loaded ≠ none → Access.Point.Removing (s.registry.threads t))
    {r : Access.System T} (hr : s.registry.step (.run t) = some r) :
    Moved s t (s.after t (s.registry.threads t)) r := by
  change s.registry.runPoint t (s.registry.threads t) = some r at hr
  generalize hp : s.registry.threads t = p at hr hloaded
  cases p with
  | idle => cases hr
  | lockShared start name | lock start name l' next | lockRemove start name =>
    obtain ⟨m, -, rfl⟩ := Option.map_eq_some_iff.1 hr
    exact .of_goto hf hp rfl rfl rfl rfl rfl rfl hloaded
  | find start name | findRemove start name =>
    obtain rfl := Option.some.inj hr
    cases s.registry.entries name with
    | none => exact .of_goto hf hp rfl rfl rfl rfl rfl rfl hloaded
    | some x => exact .of_goto hf hp rfl rfl rfl rfl rfl rfl hloaded
  | second start name =>
    obtain ⟨logger, he, rfl⟩ := Option.map_eq_some_iff.1 hr
    refine .of_update hf hp rfl rfl rfl hloaded fun l => ?_
    have hfound (hl : logger = some l) :
        s.registry.entries (s.registry.name l) = some (some l) := by
      rw [hl] at he
      rw [(entry_named h he).1, he]
    simp [System.after, Access.Point.refs, hf.1, Access.System.goto, Access.System.effect]
    tauto
  | unlockShared start name result =>
    obtain rfl := Option.some.inj hr
    refine .of_update hf hp rfl rfl rfl hloaded fun l => ?_
    simp [System.after, Access.Point.refs, hf.1, Access.System.finish, Access.System.goto]
    tauto
  | insert start name l' next =>
    obtain rfl := Option.some.inj hr
    refine .of_update hf hp rfl rfl rfl hloaded fun l => ?_
    have hentry : Function.update s.registry.entries name
        (some ((s.registry.entries name).getD none)) (s.registry.name l) = some (some l) ↔
        s.registry.entries (s.registry.name l) = some (some l) := by
      by_cases hname : s.registry.name l = name
      · subst hname
        cases s.registry.entries (s.registry.name l) <;> simp
      · rw [Function.update_of_ne hname]
    simp [System.after, Access.Point.refs, hf.1, Access.System.setEntry, Access.System.goto, hentry]
  | assign start name l' next =>
    obtain ⟨x, he, rfl⟩ := Option.map_eq_some_iff.1 hr
    refine .of_update hf hp rfl rfl rfl hloaded fun l => ?_
    have hentry := entry_update (l := l) h name (some (some l'))
    simp [System.after, Access.Point.refs, Access.System.setEntry, Access.System.effect,
      Access.System.goto] at hentry ⊢
    grind
  | unlock start name l' next =>
    cases next with
    | keep =>
      obtain rfl := Option.some.inj hr
      refine .of_update hf hp rfl rfl rfl hloaded fun l => ?_
      simp [System.after, Access.Point.refs, hf.1, Access.System.finish, Access.System.goto]
      tauto
    | store =>
      obtain rfl := Option.some.inj hr
      exact .of_goto hf hp rfl rfl rfl rfl rfl rfl hloaded
  | store start name l' =>
    obtain rfl := Option.some.inj hr
    refine .of_update hf hp rfl rfl rfl hloaded fun l => ?_
    simp [System.after, Access.Point.refs, Access.System.finish, Access.System.goto]
    grind
  | loadDefault start name =>
    obtain rfl := Option.some.inj hr
    -- `def` is a new variable
    have hnone : (s.threads t).loaded = none := by
      by_contra hsome
      exact hloaded hsome
    cases hd : s.registry.defaultLogger with
    | none =>
      refine .of_update hf hp rfl rfl rfl (fun _ => trivial) fun l => ?_
      simp [System.after, Access.Point.refs, hf.1, Access.System.goto, hd, hnone]
    | some d =>
      have hrefs : (if s.registry.name d = name then Access.Point.clear start name
          else .erase start name).refs = [] := by
        split <;> rfl
      refine .of_update hf hp rfl rfl rfl (fun _ => ?_) fun l => ?_
      · split <;> trivial
      simp [System.after, hf.1, Access.System.goto, hd, hnone, hrefs]
      simp [Access.Point.refs]
      tauto
  | clear start name =>
    obtain rfl := Option.some.inj hr
    refine .of_update hf hp rfl rfl rfl (fun _ => trivial) fun l => ?_
    simp [System.after, Access.Point.refs, Access.System.goto]
    tauto
  | erase start name =>
    obtain ⟨x, he, rfl⟩ := Option.map_eq_some_iff.1 hr
    refine .of_update hf hp rfl rfl rfl (fun hsome => absurd rfl hsome) fun l => ?_
    have hentry := entry_update (l := l) h name none
    simp [System.after, Access.Point.refs, Access.System.setEntry, Access.System.effect,
      Access.System.goto] at hentry ⊢
    tauto
  | unlockRemove start name =>
    obtain rfl := Option.some.inj hr
    exact .of_goto hf hp rfl rfl rfl rfl rfl rfl hloaded

/-! ## The steps -/

/-- The call of the registry that the thread makes. -/
def System.Calls (s : System T) (t : T) : Access.Label T → Prop
  | .getLogger u _ | .create u _ | .removeLogger u _ => u = t
  | .setDefaultLogger u logger => u = t ∧ ∀ l ∈ logger, l ∈ (s.threads t).vars
  | .run _ => False

/-- The steps, by what they do to the pointers. -/
inductive Stepped [Fintype T] (s : System T) : System T → Prop
  | call (t : T) (label : Access.Label T) (r : Access.System T) (hi : s.Idle t)
    (hc : s.Calls t label) (hr : s.registry.step label = some r) :
    Stepped s { s with registry := r }
  /-- A thread gets copies of pointers. -/
  | gain (t : T) (ls : List Ref) (hi : s.Idle t) (hls : ∀ l ∈ ls, s.Owned l) :
    Stepped s (s.setThread t { s.threads t with vars := ls ++ (s.threads t).vars })
  | drop (t : T) (l : Ref) (hi : s.Idle t) (hl : l ∈ (s.threads t).vars) :
    Stepped s (s.setThread t
      { s.threads t with cleanup := [l], vars := (s.threads t).vars.erase l })
  | setLevel (l : Ref) (level : LogLevel) :
    Stepped s { s with levels := Function.update s.levels l level }
  /-- A log statement goes on. -/
  | log (t : T) (statement : Statement)
    (hl : ∀ l, statement.logger = some l →
      l ∈ (s.threads t).vars ∨ (s.threads t).statement.logger = some l) :
    Stepped s (s.setThread t { s.threads t with statement })
  | release (t : T) (r : Ref) (rest : List Ref) (hc : (s.threads t).cleanup = r :: rest) :
    Stepped s (s.release t r rest)
  | registry (t : T) (r : Access.System T) (hf : s.Free t)
    (hr : s.registry.step (.run t) = some r) :
    Stepped s { s.setThread t (s.after t (s.registry.threads t)) with registry := r }

theorem Stepped.of_call [Fintype T] {label : Access.Label T} (h : s.call t label = some s')
    (hc : s.Calls t label) : Stepped s s' := by
  obtain ⟨hi, h⟩ := Option.ite_none_right_eq_some.1 h
  obtain ⟨r, hr, rfl⟩ := Option.map_eq_some_iff.1 h
  exact .call t label r hi hc hr

omit [DecidableEq T] in
theorem System.Owned.of_var (h : l ∈ (s.threads t).vars) : s.Owned l :=
  .inr (.inr ⟨t, List.mem_append_right _ h⟩)

theorem Stepped.of_step [Fintype T] {label : Label T} (h : s.step label = some s') :
    Stepped s s' := by
  cases label with
  | getLogger t name | create t name | removeLogger t name => exact .of_call (t := t) h rfl
  | setDefaultLogger t logger =>
    obtain ⟨hl, h⟩ := Option.ite_none_right_eq_some.1 h
    exact .of_call (t := t) h ⟨rfl, hl⟩
  | getDefaultLogger t =>
    obtain ⟨hi, h⟩ := Option.ite_none_right_eq_some.1 h
    obtain rfl := Option.some.inj h
    exact .gain t _ hi fun l hl => .inl (Option.mem_toList.1 hl)
  | copy t u l =>
    obtain ⟨⟨-, hu, hl⟩, h⟩ := Option.ite_none_right_eq_some.1 h
    obtain rfl := Option.some.inj h
    refine .gain u [l] hu fun x hx => ?_
    rw [List.mem_singleton.1 hx]
    exact .of_var hl
  | drop t l =>
    obtain ⟨⟨hi, hl⟩, h⟩ := Option.ite_none_right_eq_some.1 h
    obtain rfl := Option.some.inj h
    exact .drop t l hi hl
  | setLevel t l level =>
    obtain ⟨-, h⟩ := Option.ite_none_right_eq_some.1 h
    obtain rfl := Option.some.inj h
    exact .setLevel l level
  | log t l level =>
    obtain ⟨⟨-, hl⟩, h⟩ := Option.ite_none_right_eq_some.1 h
    obtain rfl := Option.some.inj h
    exact .log t _ fun x hx => .inl (Option.some.inj hx ▸ hl)
  | run t =>
    change s.run t = some s' at h
    unfold System.run at h
    cases hc : (s.threads t).cleanup with
    | cons r rest =>
      rw [hc] at h
      exact Option.some.inj h ▸ .release t r rest hc
    | nil =>
      cases hs : (s.threads t).statement with
      | readLevel l level =>
        rw [hc, hs] at h
        refine Option.some.inj h ▸ .log t _ fun x hx => .inr ?_
        rw [hs]
        split at hx
        · exact hx
        · cases hx
      | add l =>
        rw [hc, hs] at h
        exact Option.some.inj h ▸ .log t _ fun x hx => by cases hx
      | idle =>
        rw [hc, hs] at h
        obtain ⟨r, hr, rfl⟩ := Option.map_eq_some_iff.1 h
        exact .registry t r ⟨hc, hs⟩ hr

/-! ## What each step keeps -/

/-- What holds in every reachable state. -/
structure Sound (s : System T) : Prop where
  registry : Access.Linearized s.registry
  lifetime : Lifetime (· < s.registry.allocated) s.Owned s.destroyed
  statement : ∀ t l, (s.threads t).statement.logger = some l → l ∈ (s.threads t).vars
  loaded : ∀ t, (s.threads t).loaded ≠ none → Access.Point.Removing (s.registry.threads t)

namespace Sound

theorem init : Sound (.init : System T) where
  registry := .init
  lifetime := .init (fun _ => Nat.not_lt_zero _) fun l => by
    rintro (hd | he | ⟨t, ht⟩)
    · cases hd
    · cases he
    · exact absurd ht List.not_mem_nil
  statement := fun _ _ h => by cases h
  loaded := fun _ h => absurd rfl h

/-- A thread that is in no call has no pointer in `def`. -/
theorem loaded_eq_none (h : Sound s) (hi : s.registry.threads t = .idle) :
    (s.threads t).loaded = none := by
  by_contra hsome
  have hremoving := h.loaded t hsome
  rw [hi] at hremoving
  exact hremoving

/-- The pointers of a thread that is between two statements are those of its variables. -/
theorem refs_idle (h : Sound s) (hi : s.Idle t) : s.refs t = (s.threads t).vars := by
  simp [System.refs, hi.2, hi.1.1, h.loaded_eq_none hi.2, Access.Point.refs]

/-- A step that makes no logger and gives up no pointer. -/
theorem move (h : Sound s) (hregistry : Access.Linearized s'.registry)
    (hallocated : s'.registry.allocated = s.registry.allocated)
    (hdestroyed : s'.destroyed = s.destroyed) (howned : ∀ l, s'.Owned l ↔ s.Owned l)
    (hstatement : ∀ t l, (s'.threads t).statement.logger = some l → l ∈ (s'.threads t).vars)
    (hloaded : ∀ t, (s'.threads t).loaded ≠ none → Access.Point.Removing (s'.registry.threads t)) :
    Sound s' where
  registry := hregistry
  lifetime := by
    rw [hallocated, hdestroyed]
    exact h.lifetime.move howned
  statement := hstatement
  loaded := hloaded

/-- The thread `t` begins a call that has the pointers of `q`. -/
theorem begin (h : Sound s) {q : Access.Point} {r : Access.System T} (hi : s.Idle t)
    (hr : Access.Linearized r) (hthreads : r.threads = Function.update s.registry.threads t q)
    (hentries : r.entries = s.registry.entries)
    (hdefault : r.defaultLogger = s.registry.defaultLogger) (hname : r.name = s.registry.name)
    (hallocated : r.allocated = s.registry.allocated)
    (hq : ∀ l ∈ q.refs, l ∈ (s.threads t).vars) : Sound { s with registry := r } := by
  refine h.move hr hallocated rfl (fun l => ?_) h.statement fun u hsome => ?_
  · refine System.owned_congr (t := t) (fun u hu => ?_) ?_
    · simp [System.refs, hthreads, hu]
    · have hql := hq l
      simp [System.Local, System.refs, hthreads, hentries, hdefault, hname, hi.2,
        Access.Point.refs]
      tauto
  · have hu : u ≠ t := by
      rintro rfl
      exact hsome (h.loaded_eq_none hi.2)
    rw [hthreads, Function.update_of_ne hu]
    exact h.loaded u hsome

/-- The thread `t` begins a call that makes a logger. -/
theorem create (h : Sound s) (hi : s.Idle t) {name : Text} {r : Access.System T}
    (hr : s.registry.step (.create t name) = some r) : Sound { s with registry := r } := by
  have hlinear := h.registry.step (.of_step hr)
  obtain ⟨-, rfl⟩ := Access.Stepped.of_call hr
  have hnone := h.loaded_eq_none hi.2
  refine ⟨hlinear, h.lifetime.make (Nat.lt_irrefl _) (fun x => ?_) fun x => ?_, h.statement,
    fun u hsome => ?_⟩
  · exact Nat.lt_succ_iff_lt_or_eq
  · by_cases hx : x = s.registry.allocated
    · refine iff_of_true (.inr (.inr ⟨t, ?_⟩)) (.inr hx)
      simp [System.refs, Access.System.goto, Access.Point.refs, hx]
    · rw [or_iff_left hx]
      refine System.owned_congr (t := t) (fun u hu => ?_) ?_
      · simp [System.refs, Access.System.goto, hu]
      · simp [System.Local, System.refs, Access.System.goto, Access.Point.refs, hi.2, hx]
  · have hu : u ≠ t := by
      rintro rfl
      exact hsome hnone
    simp only [Access.System.goto, Function.update_of_ne hu]
    exact h.loaded u hsome

theorem call (h : Sound s) {label : Access.Label T} {r : Access.System T} (hi : s.Idle t)
    (hc : s.Calls t label) (hr : s.registry.step label = some r) :
    Sound { s with registry := r } := by
  have hlinear := h.registry.step (.of_step hr)
  cases label with
  | getLogger u name | removeLogger u name =>
    obtain rfl : u = t := hc
    obtain ⟨-, rfl⟩ := Access.Stepped.of_call hr
    exact h.begin hi hlinear rfl rfl rfl rfl rfl fun l hl => absurd hl List.not_mem_nil
  | create u name =>
    obtain rfl : u = t := hc
    exact h.create hi hr
  | setDefaultLogger u logger =>
    obtain ⟨rfl, hl⟩ := hc
    cases logger with
    | none =>
      obtain ⟨-, rfl⟩ := Access.Stepped.of_call hr
      exact h
    | some d =>
      obtain ⟨-, hr⟩ := Option.ite_none_right_eq_some.1 hr
      obtain ⟨-, rfl⟩ := Access.Stepped.of_call hr
      refine h.begin hi hlinear rfl rfl rfl rfl rfl fun l hd => ?_
      rw [List.mem_singleton.1 hd]
      exact hl d rfl
  | run => exact hc.elim

/-- A step of the thread `t` outside the registry. -/
theorem setThread (h : Sound s) {th : Thread} {destroyed : List Ref}
    (hlifetime : Lifetime (· < s.registry.allocated) (s.setThread t th).Owned destroyed)
    (hstatement : ∀ l, th.statement.logger = some l → l ∈ th.vars)
    (hloaded : th.loaded = (s.threads t).loaded) :
    Sound { s.setThread t th with destroyed := destroyed } where
  registry := h.registry
  lifetime := hlifetime
  statement := by
    intro u l hl
    by_cases hu : u = t
    · subst hu
      simp only [System.setThread, Function.update_self] at hl ⊢
      exact hstatement l hl
    · simp only [System.setThread, Function.update_of_ne hu] at hl ⊢
      exact h.statement u l hl
  loaded := by
    intro u hsome
    by_cases hu : u = t
    · subst hu
      simp only [System.setThread, Function.update_self, hloaded] at hsome
      exact h.loaded u hsome
    · simp only [System.setThread, Function.update_of_ne hu] at hsome
      exact h.loaded u hsome

theorem refs_setThread {th : Thread} (hu : u ≠ t) : (s.setThread t th).refs u = s.refs u := by
  simp [System.refs, System.setThread, hu]

theorem gain (h : Sound s) (hi : s.Idle t) {ls : List Ref} (hls : ∀ l ∈ ls, s.Owned l) :
    Sound (s.setThread t { s.threads t with vars := ls ++ (s.threads t).vars }) := by
  refine h.setThread (h.lifetime.move fun l => ?_) (fun l hl => ?_) rfl
  · by_cases hl : l ∈ ls
    · refine iff_of_true (.inr (.inr ⟨t, ?_⟩)) (hls l hl)
      simp [System.refs, System.setThread, hl]
    · refine System.owned_congr (fun u hu => refs_setThread hu) ?_
      simp [System.Local, System.refs, System.setThread, hl]
  · rw [hi.1.2] at hl
    cases hl

theorem drop (h : Sound s) (hi : s.Idle t) (hl : l ∈ (s.threads t).vars) :
    Sound (s.setThread t
      { s.threads t with cleanup := [l], vars := (s.threads t).vars.erase l }) := by
  refine h.setThread (h.lifetime.move fun x => ?_) (fun x hx => ?_) rfl
  · have hvars : x ∈ (s.threads t).vars ↔ x = l ∨ x ∈ (s.threads t).vars.erase l := by
      rw [(List.perm_cons_erase hl).mem_iff, List.mem_cons]
    refine System.owned_congr (fun u hu => refs_setThread hu) ?_
    simp [System.Local, System.refs, System.setThread, hi.1.1, hvars]
    tauto
  · rw [hi.1.2] at hx
    cases hx

theorem log (h : Sound s) {statement : Statement}
    (hl : ∀ l, statement.logger = some l →
      l ∈ (s.threads t).vars ∨ (s.threads t).statement.logger = some l) :
    Sound (s.setThread t { s.threads t with statement }) := by
  refine h.setThread (h.lifetime.move fun x => ?_) (fun x hx => ?_) rfl
  · refine System.owned_congr (fun u hu => refs_setThread hu) ?_
    simp [System.Local, System.refs, System.setThread]
  · exact (hl x hx).elim id (h.statement t x)

theorem release [Fintype T] (h : Sound s) {r : Ref} {rest : List Ref}
    (hc : (s.threads t).cleanup = r :: rest) : Sound (s.release t r rest) := by
  have howned (x : Ref) : s.Owned x ↔
      (s.setThread t { s.threads t with cleanup := rest }).Owned x ∨ x = r := by
    by_cases hx : x = r
    · refine iff_of_true (.inr (.inr ⟨t, ?_⟩)) (.inr hx)
      simp [System.refs, hc, hx]
    · rw [or_iff_left hx]
      refine (System.owned_congr (fun u hu => refs_setThread hu) ?_).symm
      simp [System.Local, System.refs, System.setThread, hc, hx]
  unfold System.release
  simp only
  split_ifs with hr
  · exact h.setThread (h.lifetime.release howned hr) (h.statement t) rfl
  · exact h.setThread (h.lifetime.destroy howned hr) (h.statement t) rfl

omit [DecidableEq T] in
theorem after_statement (t : T) (p : Access.Point) :
    (s.after t p).statement = (s.threads t).statement := by
  cases p with
  | unlock start name l next => cases next <;> rfl
  | _ => rfl

theorem run (h : Sound s) (hf : s.Free t) {r : Access.System T}
    (hr : s.registry.step (.run t) = some r) :
    Sound { s.setThread t (s.after t (s.registry.threads t)) with registry := r } := by
  have hm := Moved.of_run h.registry hf (h.loaded t) hr
  refine h.move (h.registry.step (.of_step hr)) hm.allocated rfl (fun l => ?_)
    (fun u l hl => ?_) fun u hsome => ?_
  · refine System.owned_congr (fun u hu => ?_) (hm.pointers l)
    simp [System.refs, System.setThread, hm.others u hu, hu]
  · by_cases hu : u = t
    · subst hu
      simp only [System.setThread, Function.update_self, after_statement, hf.2] at hl
      cases hl
    · simp only [System.setThread, Function.update_of_ne hu] at hl ⊢
      exact h.statement u l hl
  · by_cases hu : u = t
    · subst hu
      simp only [System.setThread, Function.update_self] at hsome
      exact hm.loaded hsome
    · simp only [System.setThread, Function.update_of_ne hu] at hsome
      rw [hm.others u hu]
      exact h.loaded u hsome

theorem step [Fintype T] (h : Sound s) (hs : Stepped s s') : Sound s' := by
  cases hs with
  | call t label r hi hc hr => exact h.call hi hc hr
  | gain t ls hi hls => exact h.gain hi hls
  | drop t l hi hl => exact h.drop hi hl
  | setLevel l level =>
    exact h.move h.registry rfl rfl (fun _ => Iff.rfl) h.statement h.loaded
  | log t statement hl => exact h.log hl
  | release t r rest hc => exact h.release hc
  | registry t r hf hr => exact h.run hf hr

theorem of_reachable [Fintype T] (h : (machine T).Reachable Machine.anyStep s) : Sound s :=
  h.invariant init fun _ _ _ hP _ hs => hP.step (.of_step hs)

end Sound

/-- The next operation of the thread `t` uses the logger at `l`. -/
def System.Uses (s : System T) (t : T) (l : Ref) : Prop :=
  (s.threads t).cleanup = [] ∧ ((s.threads t).statement.logger = some l ∨
    (s.threads t).statement = .idle ∧
      Access.Point.reads s.registry.defaultLogger (s.registry.threads t) = some l)

omit [DecidableEq T] in
theorem System.owned_of_reads
    (h : Access.Point.reads s.registry.defaultLogger (s.registry.threads t) = some l) :
    s.Owned l := by
  generalize hp : s.registry.threads t = p at h
  cases p with
  | insert start name l' next =>
    cases next with
    | keep => cases h
    | store =>
      refine .inr (.inr ⟨t, ?_⟩)
      simp [System.refs, hp, Access.Point.refs, Option.some.inj h]
  | loadDefault start name => exact .inl h
  | _ => cases h

theorem Sound.owned_of_uses (h : Sound s) (hu : s.Uses t l) : s.Owned l :=
  hu.2.elim (fun hl => .of_var (h.statement t l hl)) fun hr => System.owned_of_reads hr.2

variable [Fintype T]

/-- Whatever the threads call, the loggers that a pointer points to are those that were made and
not destroyed, no logger is destroyed twice, and no thread uses one that is destroyed, also when
another thread removes it from the registry or replaces the default meanwhile.  When no thread is
in a call, the loggers that were destroyed are those that are neither the default nor registered
nor in a variable. -/
theorem loggers_alive (h : (machine T).Reachable Machine.anyStep s) :
    (∀ t l, s.Uses t l → l < s.registry.allocated ∧ l ∉ s.destroyed) ∧
    (∀ l, s.registry.defaultLogger = some l ∨ (∃ n, s.registry.entries n = some (some l)) ∨
      (∃ t, l ∈ s.refs t) ↔ l < s.registry.allocated ∧ l ∉ s.destroyed) ∧
    (∀ l ∈ s.destroyed, l < s.registry.allocated) ∧ s.destroyed.Nodup ∧
    ((∀ t, s.Idle t) → ∀ l < s.registry.allocated, (l ∈ s.destroyed ↔
      s.registry.defaultLogger ≠ some l ∧ (∀ n, s.registry.entries n ≠ some (some l)) ∧
        ∀ t, l ∉ (s.threads t).vars)) := by
  have hsound := Sound.of_reachable h
  have hlifetime := hsound.lifetime
  have hpointed (l : Ref) : s.registry.defaultLogger = some l ∨
      (∃ n, s.registry.entries n = some (some l)) ∨ (∃ t, l ∈ s.refs t) ↔
        l < s.registry.allocated ∧ l ∉ s.destroyed := by
    rw [← hlifetime.pointed_iff, System.Owned]
    refine or_congr_right (or_congr_left ⟨fun ⟨n, he⟩ => ?_, fun he => ⟨_, he⟩⟩)
    exact (entry_named hsound.registry he).1.symm ▸ he
  refine ⟨fun t l hu => (hlifetime.pointed_iff l).1 (hsound.owned_of_uses hu), hpointed,
    hlifetime.made, hlifetime.once, fun hidle l hl => ?_⟩
  have hrefs : (∃ t, l ∈ s.refs t) ↔ ∃ t, l ∈ (s.threads t).vars :=
    exists_congr fun t => by rw [hsound.refs_idle (hidle t)]
  have hend := not_congr (hpointed l)
  rw [hrefs, not_and_not_right] at hend
  simp only [not_or, not_exists] at hend
  exact ⟨fun hd => hend.2 fun _ => hd, fun hnone => hend.1 hnone hl⟩

/-- A thread looks a logger up and begins to log to it, and another thread removes the logger. -/
def removing : List (Label Bool) :=
  [.create false (ascii "a")] ++ List.replicate 4 (.run false) ++
  [.setDefaultLogger false (some 0)] ++ List.replicate 6 (.run false) ++
  [.getLogger true (ascii "a")] ++ List.replicate 4 (.run true) ++
  [.drop false 0, .run false, .log true 0 .info, .removeLogger false (ascii "a")] ++
  List.replicate 9 (.run false)

/-- The logger is there while it is logged to, and is destroyed with the last variable. -/
theorem loggers_alive_removed : ∃ s s' : System Bool,
    s.registry.entries (ascii "a") = none ∧ s.Uses true 0 ∧ 0 ∉ s.destroyed ∧
      s'.destroyed = [0] ∧ ∀ n, s'.registry.entries n ≠ some (some 0) := by
  obtain ⟨s, hs, hfin⟩ := Option.map_eq_some_iff.1 (show
    ((machine Bool).exec .init removing).map
      (fun s => (s.registry.entries (ascii "a"), s.threads true)) =
        some (none, ⟨[], none, .readLevel 0 .info, [0]⟩) by decide +kernel)
  obtain ⟨s', hs', hfin'⟩ := Option.map_eq_some_iff.1 (show
    ((machine Bool).exec .init (removing ++ [.run true, .run true, .drop true 0, .run true])).map
      (fun s => (s.destroyed, s.registry.allocated, s.registry.threads false, s.threads false,
        s.registry.threads true, s.threads true)) =
        some ([0], 1, .idle, ⟨[], none, .idle, []⟩, .idle, ⟨[], none, .idle, []⟩)
      by decide +kernel)
  simp only [Prod.mk.injEq] at hfin hfin'
  obtain ⟨hentry, htrue⟩ := hfin
  obtain ⟨hdestroyed, hallocated, hpoint, hfalse, hpoint', htrue'⟩ := hfin'
  have huses : s.Uses true 0 := by simp [System.Uses, htrue, Statement.logger]
  have hidle (t : Bool) : s'.Idle t := by
    cases t
    · exact ⟨⟨by rw [hfalse], by rw [hfalse]⟩, hpoint⟩
    · exact ⟨⟨by rw [htrue'], by rw [htrue']⟩, hpoint'⟩
  obtain ⟨halive, -⟩ := loggers_alive (.of_exec _ (fun _ _ _ => trivial) hs)
  obtain ⟨-, -, -, -, hends⟩ := loggers_alive (.of_exec _ (fun _ _ _ => trivial) hs')
  have hend := (hends hidle 0 (by simp [hallocated])).1 (by simp [hdestroyed])
  exact ⟨s, s', hentry, huses, (halive true 0 huses).2, hdestroyed, hend.2.1⟩

end Pointers

end Registry

end ZephyrLog
