import ZephyrLog.Lib.Keyed
import ZephyrLog.Lib.SharedMutex
import ZephyrLog.Lib.Transition
import ZephyrLog.Registry.Model

/-!
# The registry under its shared mutex

Any number of threads call `getLogger`, `createLogger` or `createSafeLogger`, `setDefaultLogger` and
`removeLogger`, each thread one call after the other.  `getLogger` holds `g_registryMutex` shared,
the others hold it exclusively, and each access to `g_registry` in between is a step:
`g_registry[name] = logger` first finds or inserts the entry, with a null pointer, and then assigns
to it, and an iterator that `find` has returned is used later.  To use an entry that is not there
has no defined behaviour, and no step here.  Of a logger only its name counts.

`effects` and `returned` are history: no step reads them.
-/

namespace ZephyrLog

namespace Registry

namespace Access

/-- What a call does to the registry. -/
inductive Op where
  /-- `find`, with the pointer that `getLogger` returns. -/
  | find (name : Text) (result : Option Ref)
  /-- The entry is assigned, or erased; to erase an entry that is not there changes nothing. -/
  | write (name : Text) (logger : Option Ref)
  deriving DecidableEq, Repr

/-- The key and the value that the operation writes. -/
def Op.put : Op → Option (Text × Option Ref)
  | .find _ _ => none
  | .write name logger => some (name, logger)

/-- What follows the assignment of an entry. -/
inductive Next where
  /-- `setDefaultLogger` stores the default. -/
  | store
  /-- `createLogger` and `createSafeLogger` return. -/
  | keep
  deriving DecidableEq

/-- The next operation of a thread; `start` operations had taken effect when the call began. -/
inductive Point where
  | idle
  /-- `getLogger`: `std::shared_lock lock(g_registryMutex)` -/
  | lockShared (start : ℕ) (name : Text)
  /-- `g_registry.find(name)` -/
  | find (start : ℕ) (name : Text)
  /-- `it->second` -/
  | second (start : ℕ) (name : Text)
  | unlockShared (start : ℕ) (name : Text) (result : Option Ref)
  /-- `createLogger`, `setDefaultLogger`: `std::unique_lock lock(g_registryMutex)` -/
  | lock (start : ℕ) (name : Text) (l : Ref) (next : Next)
  /-- `g_registry[name]` -/
  | insert (start : ℕ) (name : Text) (l : Ref) (next : Next)
  /-- The assignment of `logger`. -/
  | assign (start : ℕ) (name : Text) (l : Ref) (next : Next)
  | unlock (start : ℕ) (name : Text) (l : Ref) (next : Next)
  /-- `std::atomic_store(&g_defaultLogger, std::move(logger))` -/
  | store (start : ℕ) (name : Text) (l : Ref)
  /-- `removeLogger`: `std::unique_lock lock(g_registryMutex)` -/
  | lockRemove (start : ℕ) (name : Text)
  /-- `g_registry.find(name)` -/
  | findRemove (start : ℕ) (name : Text)
  /-- `std::atomic_load(&g_defaultLogger)` and the comparison of the names. -/
  | loadDefault (start : ℕ) (name : Text)
  /-- `std::atomic_store(&g_defaultLogger, std::shared_ptr<Logger>{})` -/
  | clear (start : ℕ) (name : Text)
  /-- `g_registry.erase(it)` -/
  | erase (start : ℕ) (name : Text)
  | unlockRemove (start : ℕ) (name : Text)
  deriving DecidableEq

open SharedMutex (Mode)

/-- How the thread holds the mutex. -/
def Point.mode : Point → Option Mode
  | .find _ _ | .second _ _ | .unlockShared _ _ _ => some .shared
  | .insert _ _ _ _ | .assign _ _ _ _ | .unlock _ _ _ _ => some .exclusive
  | .findRemove _ _ | .loadDefault _ _ | .clear _ _ | .erase _ _ | .unlockRemove _ _ =>
    some .exclusive
  | .idle | .lockShared _ _ | .lock _ _ _ _ | .store _ _ _ | .lockRemove _ _ => none

/-- An operation that has taken effect. -/
structure Effect (T : Type) where
  thread : T
  op : Op
  deriving DecidableEq

/-- A call that has returned: how many operations had taken effect when it began and when it
returned. -/
structure Returned (T : Type) where
  thread : T
  start : ℕ
  stop : ℕ
  op : Op
  deriving DecidableEq

/-- The globals, the threads that use them, and the history of their calls. -/
structure System (T : Type) where
  /-- `g_registry`: an entry may hold a null pointer. -/
  entries : Text → Option (Option Ref)
  defaultLogger : Option Ref
  mutex : SharedMutex T
  /-- The name of the logger at each address. -/
  name : Ref → Text
  allocated : ℕ
  threads : T → Point
  effects : List (Effect T)
  returned : List (Returned T)

/-- What a thread does next. -/
inductive Label (T : Type) where
  | getLogger (t : T) (name : Text)
  /-- `createLogger` or `createSafeLogger`. -/
  | create (t : T) (name : Text)
  | setDefaultLogger (t : T) (logger : Option Ref)
  | removeLogger (t : T) (name : Text)
  /-- Thread `t` executes its next operation. -/
  | run (t : T)

variable {T : Type}

namespace System

/-- No logger has been made. -/
def init : System T :=
  { entries := fun _ => none, defaultLogger := none, mutex := .free, name := fun _ => [],
    allocated := 0, threads := fun _ => .idle, effects := [], returned := [] }

variable [DecidableEq T]

/-- The thread `t` goes on with the operation `p`. -/
def goto (s : System T) (t : T) (p : Point) : System T :=
  { s with threads := Function.update s.threads t p }

/-- The operation of thread `t` takes effect. -/
def effect (s : System T) (t : T) (op : Op) : System T :=
  { s with effects := s.effects ++ [⟨t, op⟩] }

/-- The call of thread `t` returns. -/
def finish (s : System T) (t : T) (start : ℕ) (op : Op) : System T :=
  { s.goto t .idle with returned := s.returned ++ [⟨t, start, s.effects.length, op⟩] }

/-- The entry of `name` becomes `entry`; none takes it out. -/
def setEntry (s : System T) (name : Text) (entry : Option (Option Ref)) : System T :=
  { s with entries := Function.update s.entries name entry }

/-- Thread `t` executes the operation `p`. -/
def runPoint (s : System T) (t : T) : Point → Option (System T)
  | .idle => none
  | .lockShared start name => (s.mutex.lockShared t).map fun m =>
    { s.goto t (.find start name) with mutex := m }
  | .find start name => some (match s.entries name with
    | none => (s.effect t (.find name none)).goto t (.unlockShared start name none)
    | some _ => s.goto t (.second start name))
  | .second start name => (s.entries name).map fun logger =>
    (s.effect t (.find name logger)).goto t (.unlockShared start name logger)
  | .unlockShared start name result =>
    some { s.finish t start (.find name result) with mutex := s.mutex.unlockShared t }
  | .lock start name l next => (s.mutex.lock t).map fun m =>
    { s.goto t (.insert start name l next) with mutex := m }
  | .insert start name l next =>
    some ((s.setEntry name (some ((s.entries name).getD none))).goto t (.assign start name l next))
  | .assign start name l next => (s.entries name).map fun _ =>
    ((s.setEntry name (some (some l))).effect t (.write name (some l))).goto t
      (.unlock start name l next)
  | .unlock start name l .keep =>
    some { s.finish t start (.write name (some l)) with mutex := s.mutex.unlock }
  | .unlock start name l .store =>
    some { s.goto t (.store start name l) with mutex := s.mutex.unlock }
  | .store start name l =>
    some { s.finish t start (.write name (some l)) with defaultLogger := some l }
  | .lockRemove start name => (s.mutex.lock t).map fun m =>
    { s.goto t (.findRemove start name) with mutex := m }
  | .findRemove start name => some (match s.entries name with
    | none => (s.effect t (.write name none)).goto t (.unlockRemove start name)
    | some _ => s.goto t (.loadDefault start name))
  | .loadDefault start name => some (match s.defaultLogger with
    | none => s.goto t (.erase start name)
    | some d => s.goto t (if s.name d = name then .clear start name else .erase start name))
  | .clear start name => some { s.goto t (.erase start name) with defaultLogger := none }
  | .erase start name => (s.entries name).map fun _ =>
    ((s.setEntry name none).effect t (.write name none)).goto t (.unlockRemove start name)
  | .unlockRemove start name =>
    some { s.finish t start (.write name none) with mutex := s.mutex.unlock }

/-- Thread `t` makes a call. -/
def call (s : System T) (t : T) (after : System T) : Option (System T) :=
  if s.threads t = .idle then some after else none

/-- One step of a thread. -/
def step (s : System T) : Label T → Option (System T)
  | .getLogger t name => s.call t (s.goto t (.lockShared s.effects.length name))
  | .create t name => s.call t
    { s.goto t (.lock s.effects.length name s.allocated .keep) with
      name := Function.update s.name s.allocated name
      allocated := s.allocated + 1 }
  | .setDefaultLogger t none => s.call t s
  | .setDefaultLogger t (some l) =>
    if l < s.allocated then s.call t (s.goto t (.lock s.effects.length (s.name l) l .store))
    else none
  | .removeLogger t name => s.call t (s.goto t (.lockRemove s.effects.length name))
  | .run t => s.runPoint t (s.threads t)

end System

/-- Threads that call the functions of the registry. -/
def machine (T : Type) [DecidableEq T] : Machine (System T) (Label T) where
  init := .init
  step := System.step

/-- The pointer under every name after the operations of a sequential run. -/
def contents (ops : List Op) : Text → Option Ref := ops.foldl (Keyed.put Op.put) fun _ => none

/-! ## The steps -/

variable [DecidableEq T] {s s' : System T} {t : T} {p : Point}

/-- The steps, by the call or the operation. -/
inductive Stepped (s : System T) : System T → Prop
  | getLogger (t : T) (name : Text) (h : s.threads t = .idle) :
    Stepped s (s.goto t (.lockShared s.effects.length name))
  | create (t : T) (name : Text) (h : s.threads t = .idle) :
    Stepped s { s.goto t (.lock s.effects.length name s.allocated .keep) with
      name := Function.update s.name s.allocated name
      allocated := s.allocated + 1 }
  | setDefaultNull (t : T) (h : s.threads t = .idle) : Stepped s s
  | setDefault (t : T) (l : Ref) (h : s.threads t = .idle) (hl : l < s.allocated) :
    Stepped s (s.goto t (.lock s.effects.length (s.name l) l .store))
  | removeLogger (t : T) (name : Text) (h : s.threads t = .idle) :
    Stepped s (s.goto t (.lockRemove s.effects.length name))
  | lockShared (t : T) (start : ℕ) (name : Text) (m : SharedMutex T)
    (h : s.threads t = .lockShared start name) (hm : s.mutex.lockShared t = some m) :
    Stepped s { s.goto t (.find start name) with mutex := m }
  | findMissing (t : T) (start : ℕ) (name : Text) (h : s.threads t = .find start name)
    (he : s.entries name = none) :
    Stepped s ((s.effect t (.find name none)).goto t (.unlockShared start name none))
  | findFound (t : T) (start : ℕ) (name : Text) (h : s.threads t = .find start name)
    (he : (s.entries name).isSome) : Stepped s (s.goto t (.second start name))
  | second (t : T) (start : ℕ) (name : Text) (logger : Option Ref)
    (h : s.threads t = .second start name) (he : s.entries name = some logger) :
    Stepped s ((s.effect t (.find name logger)).goto t (.unlockShared start name logger))
  | unlockShared (t : T) (start : ℕ) (name : Text) (result : Option Ref)
    (h : s.threads t = .unlockShared start name result) :
    Stepped s { s.finish t start (.find name result) with mutex := s.mutex.unlockShared t }
  | lock (t : T) (start : ℕ) (name : Text) (l : Ref) (next : Next) (m : SharedMutex T)
    (h : s.threads t = .lock start name l next) (hm : s.mutex.lock t = some m) :
    Stepped s { s.goto t (.insert start name l next) with mutex := m }
  | insert (t : T) (start : ℕ) (name : Text) (l : Ref) (next : Next)
    (h : s.threads t = .insert start name l next) :
    Stepped s ((s.setEntry name (some ((s.entries name).getD none))).goto t
      (.assign start name l next))
  | assign (t : T) (start : ℕ) (name : Text) (l : Ref) (next : Next)
    (h : s.threads t = .assign start name l next) :
    Stepped s (((s.setEntry name (some (some l))).effect t (.write name (some l))).goto t
      (.unlock start name l next))
  | unlockKeep (t : T) (start : ℕ) (name : Text) (l : Ref)
    (h : s.threads t = .unlock start name l .keep) :
    Stepped s { s.finish t start (.write name (some l)) with mutex := s.mutex.unlock }
  | unlockStore (t : T) (start : ℕ) (name : Text) (l : Ref)
    (h : s.threads t = .unlock start name l .store) :
    Stepped s { s.goto t (.store start name l) with mutex := s.mutex.unlock }
  | store (t : T) (start : ℕ) (name : Text) (l : Ref) (h : s.threads t = .store start name l) :
    Stepped s { s.finish t start (.write name (some l)) with defaultLogger := some l }
  | lockRemove (t : T) (start : ℕ) (name : Text) (m : SharedMutex T)
    (h : s.threads t = .lockRemove start name) (hm : s.mutex.lock t = some m) :
    Stepped s { s.goto t (.findRemove start name) with mutex := m }
  | removeMissing (t : T) (start : ℕ) (name : Text) (h : s.threads t = .findRemove start name)
    (he : s.entries name = none) :
    Stepped s ((s.effect t (.write name none)).goto t (.unlockRemove start name))
  | removeFound (t : T) (start : ℕ) (name : Text) (h : s.threads t = .findRemove start name)
    (he : (s.entries name).isSome) : Stepped s (s.goto t (.loadDefault start name))
  | loadDefault (t : T) (start : ℕ) (name : Text) (q : Point)
    (h : s.threads t = .loadDefault start name)
    (hq : q = .clear start name ∨ q = .erase start name) : Stepped s (s.goto t q)
  | clear (t : T) (start : ℕ) (name : Text) (h : s.threads t = .clear start name) :
    Stepped s { s.goto t (.erase start name) with defaultLogger := none }
  | erase (t : T) (start : ℕ) (name : Text) (h : s.threads t = .erase start name) :
    Stepped s (((s.setEntry name none).effect t (.write name none)).goto t
      (.unlockRemove start name))
  | unlockRemove (t : T) (start : ℕ) (name : Text) (h : s.threads t = .unlockRemove start name) :
    Stepped s { s.finish t start (.write name none) with mutex := s.mutex.unlock }

omit [DecidableEq T] in
theorem Stepped.of_call {after : System T} (h : s.call t after = some s') :
    s.threads t = .idle ∧ s' = after := by
  obtain ⟨hidle, h⟩ := Option.ite_none_right_eq_some.1 h
  exact ⟨hidle, (Option.some.inj h).symm⟩

theorem Stepped.of_runPoint (hp : s.threads t = p) (h : s.runPoint t p = some s') :
    Stepped s s' := by
  cases p with
  | idle => cases h
  | lockShared start name =>
    obtain ⟨m, hm, rfl⟩ := Option.map_eq_some_iff.1 h
    exact .lockShared t start name m hp hm
  | find start name =>
    obtain rfl := Option.some.inj h
    cases he : s.entries name with
    | none => exact .findMissing t start name hp he
    | some x => exact .findFound t start name hp (by rw [he]; rfl)
  | second start name =>
    obtain ⟨logger, he, rfl⟩ := Option.map_eq_some_iff.1 h
    exact .second t start name logger hp he
  | unlockShared start name result =>
    obtain rfl := Option.some.inj h
    exact .unlockShared t start name result hp
  | lock start name l next =>
    obtain ⟨m, hm, rfl⟩ := Option.map_eq_some_iff.1 h
    exact .lock t start name l next m hp hm
  | insert start name l next =>
    obtain rfl := Option.some.inj h
    exact .insert t start name l next hp
  | assign start name l next =>
    obtain ⟨x, -, rfl⟩ := Option.map_eq_some_iff.1 h
    exact .assign t start name l next hp
  | unlock start name l next =>
    cases next with
    | keep =>
      obtain rfl := Option.some.inj h
      exact .unlockKeep t start name l hp
    | store =>
      obtain rfl := Option.some.inj h
      exact .unlockStore t start name l hp
  | store start name l =>
    obtain rfl := Option.some.inj h
    exact .store t start name l hp
  | lockRemove start name =>
    obtain ⟨m, hm, rfl⟩ := Option.map_eq_some_iff.1 h
    exact .lockRemove t start name m hp hm
  | findRemove start name =>
    obtain rfl := Option.some.inj h
    cases he : s.entries name with
    | none => exact .removeMissing t start name hp he
    | some x => exact .removeFound t start name hp (by rw [he]; rfl)
  | loadDefault start name =>
    obtain rfl := Option.some.inj h
    cases hd : s.defaultLogger with
    | none => exact .loadDefault t start name _ hp (.inr rfl)
    | some d =>
      by_cases hname : s.name d = name
      · exact .loadDefault t start name _ hp (.inl (if_pos hname))
      · exact .loadDefault t start name _ hp (.inr (if_neg hname))
  | clear start name =>
    obtain rfl := Option.some.inj h
    exact .clear t start name hp
  | erase start name =>
    obtain ⟨x, -, rfl⟩ := Option.map_eq_some_iff.1 h
    exact .erase t start name hp
  | unlockRemove start name =>
    obtain rfl := Option.some.inj h
    exact .unlockRemove t start name hp

theorem Stepped.of_step {label : Label T} (h : s.step label = some s') : Stepped s s' := by
  cases label with
  | getLogger t name =>
    obtain ⟨hidle, rfl⟩ := of_call h
    exact .getLogger t name hidle
  | create t name =>
    obtain ⟨hidle, rfl⟩ := of_call h
    exact .create t name hidle
  | setDefaultLogger t logger =>
    cases logger with
    | none =>
      obtain ⟨hidle, rfl⟩ := of_call h
      exact .setDefaultNull t hidle
    | some l =>
      obtain ⟨hl, h⟩ := Option.ite_none_right_eq_some.1 h
      obtain ⟨hidle, rfl⟩ := of_call h
      exact .setDefault t l hidle hl
  | removeLogger t name =>
    obtain ⟨hidle, rfl⟩ := of_call h
    exact .removeLogger t name hidle
  | run t => exact .of_runPoint rfl h

end Access

end Registry

end ZephyrLog
