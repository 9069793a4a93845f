import Mathlib.Data.Fintype.Basic
import ZephyrLog.Registry.Access

/-!
# Who points to a logger

The registry of `Access` with the `std::shared_ptr`s that its functions copy, move and give up, and
threads that keep pointers in variables: they get them from `getLogger`, from `createLogger` and
`createSafeLogger` and from `getDefaultLogger`, hand them to each other, let them go out of scope,
and log through the macros `ZD(logger)`, …, `ZC(logger)`, which use the logger by its address.

A pointer that is overwritten or erased or goes out of scope is given up in a step of its own, which
destroys the logger if that was the last one; in a critical section this is before the mutex is
unlocked.
-/

namespace ZephyrLog

namespace Registry

/-- The pointer in a local variable of the call, or in its parameter. -/
def Access.Point.refs : Access.Point → List Ref
  | .unlockShared _ _ result => result.toList
  | .lock _ _ l _ | .insert _ _ l _ | .assign _ _ l _ | .unlock _ _ l _ | .store _ _ l => [l]
  | _ => []

namespace Pointers

/-- The next operation of a log statement. -/
inductive Statement where
  | idle
  /-- `(logger)->level()` -/
  | readLevel (l : Ref) (level : LogLevel)
  /-- `LoggerRef::operator==`: `logger->add(std::move(logline))` -/
  | add (l : Ref)
  deriving DecidableEq

/-- The pointers of a thread, and what it does outside the registry. -/
structure Thread where
  /-- Pointers to give up. -/
  cleanup : List Ref
  /-- `def` in `removeLogger`. -/
  loaded : Option Ref
  statement : Statement
  /-- The pointers in the variables of the caller. -/
  vars : List Ref
  deriving DecidableEq

/-- The registry, the pointers of all threads, and the loggers destroyed. -/
structure System (T : Type) where
  registry : Access.System T
  /-- `m_level` of the logger at each address. -/
  levels : Ref → LogLevel
  threads : T → Thread
  /-- The loggers that were destroyed, in this order. -/
  destroyed : List Ref

/-- What a thread does next. -/
inductive Label (T : Type) where
  | getLogger (t : T) (name : Text)
  /-- `createLogger` or `createSafeLogger`. -/
  | create (t : T) (name : Text)
  | setDefaultLogger (t : T) (logger : Option Ref)
  | removeLogger (t : T) (name : Text)
  | getDefaultLogger (t : T)
  /-- Thread `t` copies a pointer for thread `u`. -/
  | copy (t u : T) (l : Ref)
  /-- A variable goes out of scope. -/
  | drop (t : T) (l : Ref)
  /-- `logger->setLevel(level)` -/
  | setLevel (t : T) (l : Ref) (level : LogLevel)
  /-- `ZD(logger)`, …, `ZC(logger)` -/
  | log (t : T) (l : Ref) (level : LogLevel)
  /-- Thread `t` executes its next operation. -/
  | run (t : T)

namespace System

variable {T : Type}

/-- No logger has been made, and no thread has a pointer. -/
def init : System T :=
  { registry := .init, levels := fun _ => .debug, threads := fun _ => ⟨[], none, .idle, []⟩,
    destroyed := [] }

/-- The pointers of a thread. -/
def refs (s : System T) (t : T) : List Ref :=
  (s.registry.threads t).refs ++ (s.threads t).cleanup ++ (s.threads t).loaded.toList ++
    (s.threads t).vars

/-- Some `std::shared_ptr` points to `l`.  An entry of the registry is under its logger's name. -/
def Owned (s : System T) (l : Ref) : Prop :=
  s.registry.defaultLogger = some l ∨ s.registry.entries (s.registry.name l) = some (some l) ∨
    ∃ t, l ∈ s.refs t

instance [Fintype T] (s : System T) (l : Ref) : Decidable (s.Owned l) :=
  inferInstanceAs (Decidable (_ ∨ _ ∨ ∃ t, l ∈ s.refs t))

/-- The pointers of thread `t` after the operation `p` of the registry. -/
def after (s : System T) (t : T) : Access.Point → Thread
  | .unlockShared _ _ result =>
    { s.threads t with vars := result.toList ++ (s.threads t).vars }
  | .assign _ name _ _ =>
    { s.threads t with cleanup := (s.registry.entries name).join.toList }
  | .unlock _ _ l .keep => { s.threads t with vars := l :: (s.threads t).vars }
  | .store _ _ _ | .clear _ _ =>
    { s.threads t with cleanup := s.registry.defaultLogger.toList }
  | .loadDefault _ _ => { s.threads t with loaded := s.registry.defaultLogger }
  | .erase _ name =>
    -- `g_registry.erase(it)`, and then the end of the scope of `def`
    { s.threads t with
      cleanup := (s.registry.entries name).join.toList ++ (s.threads t).loaded.toList
      loaded := none }
  | _ => s.threads t

variable [DecidableEq T]

/-- The thread `t` goes on as `th`. -/
def setThread (s : System T) (t : T) (th : Thread) : System T :=
  { s with threads := Function.update s.threads t th }

/-- Nothing is left of the last statement of thread `t` outside the registry. -/
def Free (s : System T) (t : T) : Prop :=
  (s.threads t).cleanup = [] ∧ (s.threads t).statement = .idle

instance (s : System T) (t : T) : Decidable (s.Free t) := inferInstanceAs (Decidable (_ ∧ _))

/-- Thread `t` is between two statements. -/
def Idle (s : System T) (t : T) : Prop := s.Free t ∧ s.registry.threads t = .idle

instance (s : System T) (t : T) : Decidable (s.Idle t) := inferInstanceAs (Decidable (_ ∧ _))

/-- Thread `t` makes a call. -/
def call (s : System T) (t : T) (label : Access.Label T) : Option (System T) :=
  if s.Idle t then (s.registry.step label).map fun r => { s with registry := r } else none

variable [Fintype T]

/-- Thread `t` gives up the pointer `r`, and then those of `rest`. -/
def release (s : System T) (t : T) (r : Ref) (rest : List Ref) : System T :=
  let s' := s.setThread t { s.threads t with cleanup := rest }
  if s'.Owned r then s' else { s' with destroyed := s'.destroyed ++ [r] }

/-- The next operation of thread `t`: pointers are given up first. -/
def run (s : System T) (t : T) : Option (System T) :=
  match (s.threads t).cleanup, (s.threads t).statement with
  | r :: rest, _ => some (s.release t r rest)
  | [], .readLevel l level => some (s.setThread t { s.threads t with
      statement := if (s.levels l).value ≤ level.value then .add l else .idle })
  | [], .add _ => some (s.setThread t { s.threads t with statement := .idle })
  | [], .idle => (s.registry.step (.run t)).map fun r =>
    { s.setThread t (s.after t (s.registry.threads t)) with registry := r }

/-- One step of a thread. -/
def step (s : System T) : Label T → Option (System T)
  | .getLogger t name => s.call t (.getLogger t name)
  | .create t name => s.call t (.create t name)
  | .setDefaultLogger t logger =>
    if ∀ l ∈ logger, l ∈ (s.threads t).vars then s.call t (.setDefaultLogger t logger) else none
  | .removeLogger t name => s.call t (.removeLogger t name)
  | .getDefaultLogger t =>
    if s.Idle t then some (s.setThread t { s.threads t with
      vars := s.registry.defaultLogger.toList ++ (s.threads t).vars })
    else none
  | .copy t u l =>
    if s.Idle t ∧ s.Idle u ∧ l ∈ (s.threads t).vars then
      some (s.setThread u { s.threads u with vars := l :: (s.threads u).vars })
    else none
  | .drop t l =>
    if s.Idle t ∧ l ∈ (s.threads t).vars then
      some (s.setThread t { s.threads t with cleanup := [l], vars := (s.threads t).vars.erase l })
    else none
  | .setLevel t l level =>
    if s.Idle t ∧ l ∈ (s.threads t).vars then
      some { s with levels := Function.update s.levels l level }
    else none
  | .log t l level =>
    if s.Idle t ∧ l ∈ (s.threads t).vars then
      some (s.setThread t { s.threads t with statement := .readLevel l level })
    else none
  | .run t => s.run t

end System

/-- Threads that share the loggers of the registry. -/
def machine (T : Type) [Fintype T] [DecidableEq T] : Machine (System T) (Label T) where
  init := .init
  step := System.step

end Pointers

end Registry

end ZephyrLog
