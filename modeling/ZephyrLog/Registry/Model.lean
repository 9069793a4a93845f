import Mathlib.Logic.Function.Basic
import ZephyrLog.Lib.Transition
import ZephyrLog.LogLine.Model

/-!
# The registry of loggers and the default logger

The functions of `zephyrlog.cpp`, each run without interruption.  A `std::shared_ptr<Logger>` is the
address of a logger or null; addresses are given out in the order of construction and none is used
twice.  `Call` is a call of one of the functions that change the global state, and `machine` runs
any sequence of them.
-/

namespace ZephyrLog

/-- The `bufferSize` of a Quick logger.  With 0 the worker divides by zero in its first `tryPop`,
and the program dies. -/
abbrev RingSize := { bufferSize : BitVec 32 // bufferSize ≠ 0 }

/-- The arguments with which a `Logger` constructs its `AsyncLogger`. -/
structure Config where
  /-- The ring size of a Quick logger; none for a Safe logger. -/
  bufferSize : Option RingSize
  logDirectory : Text
  logFileName : Text
  rollSize : BitVec 32
  terminalOutput : Bool
  deriving DecidableEq, Repr

/-- `Logger`: its name, its `AsyncLogger` and its level. -/
structure Logger where
  name : Text
  impl : Config
  level : LogLevel
  deriving DecidableEq, Repr

/-- The address of a logger. -/
abbrev Ref := ℕ

/-- `g_defaultLogger`, `g_logLevel` and `g_registry`; a pointer to a logger is an `α`. -/
structure Globals (α : Type) where
  defaultLogger : Option α
  logLevel : LogLevel
  registry : Text → Option α

namespace Globals

variable {α : Type}

/-- The globals before `main`. -/
def init : Globals α := { defaultLogger := none, logLevel := .debug, registry := fun _ => none }

/-- `g_registry[name] = logger` -/
def register (g : Globals α) (name : Text) (logger : α) : Globals α :=
  { g with registry := Function.update g.registry name (some logger) }

/-- `std::atomic_store(&g_defaultLogger, logger)` -/
def storeDefault (g : Globals α) (logger : Option α) : Globals α :=
  { g with defaultLogger := logger }

/-- `g_registry.erase(it)` of the entry of `name`. -/
def erase (g : Globals α) (name : Text) : Globals α :=
  { g with registry := Function.update g.registry name none }

/-- Clear the default if the default that was loaded has the name. -/
def clearDefault (g : Globals α) (nameOf : α → Text) (loaded : Option α) (name : Text) :
    Globals α :=
  match loaded with
  | none => g
  | some logger => if nameOf logger = name then g.storeDefault none else g

/-- What `setDefaultLogger` does to the globals. -/
def setDefaultLogger (g : Globals α) (nameOf : α → Text) : Option α → Globals α
  | none => g
  | some logger => (g.register (nameOf logger) logger).storeDefault (some logger)

/-- What `removeLogger` does to the globals. -/
def removeLogger (g : Globals α) (nameOf : α → Text) (name : Text) : Globals α :=
  match g.registry name with
  | none => g
  | some _ => (g.clearDefault nameOf g.defaultLogger name).erase name

/-- The globals with other pointers to the same loggers. -/
def map {β : Type} (f : α → β) (g : Globals α) : Globals β where
  defaultLogger := g.defaultLogger.map f
  logLevel := g.logLevel
  registry := fun name => (g.registry name).map f

theorem registry_register (g : Globals α) (name n : Text) (l : α) :
    (g.register name l).registry n = if n = name then some l else g.registry n :=
  Function.update_apply ..

theorem clearDefault_registry (g : Globals α) (nameOf : α → Text) (d : Option α) (name : Text) :
    (g.clearDefault nameOf d name).registry = g.registry := by
  unfold clearDefault
  cases d with
  | none => rfl
  | some l => by_cases h : nameOf l = name <;> simp [h, storeDefault]

/-- Removing a logger writes null into its entry, whether there was one or not. -/
theorem removeLogger_registry (g : Globals α) (nameOf : α → Text) (name : Text) :
    (g.removeLogger nameOf name).registry = Function.update g.registry name none := by
  unfold removeLogger
  cases h : g.registry name with
  | none => simp [← h]
  | some l => simp [erase, clearDefault_registry]

/-- The default after `removeLogger`. -/
theorem removeLogger_default (g : Globals α) (nameOf : α → Text) (name : Text) :
    (g.removeLogger nameOf name).defaultLogger =
      g.defaultLogger.filter fun d => ¬((g.registry name).isSome ∧ nameOf d = name) := by
  unfold removeLogger
  cases g.registry name with
  | none => cases g.defaultLogger <;> simp [Option.filter]
  | some l =>
    cases hd : g.defaultLogger with
    | none => simp [erase, clearDefault, hd]
    | some d =>
      by_cases hname : nameOf d = name
      · simp [erase, clearDefault, storeDefault, hname, Option.filter]
      · simp [erase, clearDefault, hname, hd, Option.filter]

end Globals

namespace Registry

/-- The globals, and the loggers that have been made. -/
structure State where
  globals : Globals Ref
  /-- The logger at each address. -/
  loggers : Ref → Logger
  allocated : ℕ

namespace State

/-- No logger has been made. -/
def init : State :=
  { globals := .init, loggers := fun _ => ⟨[], ⟨none, [], [], 0, false⟩, .debug⟩, allocated := 0 }

/-- `std::make_shared<Logger>(name, …)`: the new logger's address is `s.allocated`. -/
def makeLogger (s : State) (name : Text) (impl : Config) : State :=
  { s with
    loggers := Function.update s.loggers s.allocated ⟨name, impl, .debug⟩
    allocated := s.allocated + 1 }

/-- `Logger::setLevel` -/
def setLevel (s : State) (logger : Ref) (level : LogLevel) : State :=
  { s with loggers := Function.update s.loggers logger { s.loggers logger with level } }

/-- `Logger::name` -/
def name (s : State) (logger : Ref) : Text := (s.loggers logger).name

/-- `setLogLevel` -/
def setLogLevel (s : State) (level : LogLevel) : State :=
  let s := { s with globals := { s.globals with logLevel := level } }
  match s.globals.defaultLogger with
  | none => s
  | some logger => s.setLevel logger level

/-- `getLogLevel` -/
def getLogLevel (s : State) : LogLevel :=
  match s.globals.defaultLogger with
  | some logger => (s.loggers logger).level
  | none => s.globals.logLevel

/-- `setDefaultLogger` -/
def setDefaultLogger (s : State) (logger : Option Ref) : State :=
  { s with globals := s.globals.setDefaultLogger s.name logger }

/-- What `initializeQuick` and `initializeSafe` share. -/
def makeDefault (s : State) (impl : Config) : State :=
  (s.makeLogger (ascii "default") impl).setDefaultLogger (some s.allocated)

/-- `initializeQuick` -/
def initializeQuick (s : State) (bufferSize : RingSize) (logDirectory logFileName : Text)
    (rollSize : BitVec 32) (terminalOutput : Bool) : State :=
  s.makeDefault ⟨some bufferSize, logDirectory, logFileName, rollSize, terminalOutput⟩

/-- `initializeSafe` -/
def initializeSafe (s : State) (logDirectory logFileName : Text) (rollSize : BitVec 32)
    (terminalOutput : Bool) : State :=
  s.makeDefault ⟨none, logDirectory, logFileName, rollSize, terminalOutput⟩

/-- What `createLogger` and `createSafeLogger` share. -/
def create (s : State) (name : Text) (impl : Config) : State :=
  { s.makeLogger name impl with globals := s.globals.register name s.allocated }

/-- The logger returned is at `s.allocated`. -/
def createLogger (s : State) (name : Text) (bufferSize : RingSize)
    (logDirectory logFileName : Text) (rollSize : BitVec 32) (terminalOutput : Bool) : State :=
  s.create name ⟨some bufferSize, logDirectory, logFileName, rollSize, terminalOutput⟩

/-- The logger returned is at `s.allocated`. -/
def createSafeLogger (s : State) (name : Text) (logDirectory logFileName : Text)
    (rollSize : BitVec 32) (terminalOutput : Bool) : State :=
  s.create name ⟨none, logDirectory, logFileName, rollSize, terminalOutput⟩

/-- `getLogger` -/
def getLogger (s : State) (name : Text) : Option Ref := s.globals.registry name

/-- `getDefaultLogger` -/
def getDefaultLogger (s : State) : Option Ref := s.globals.defaultLogger

/-- `removeLogger` -/
def removeLogger (s : State) (name : Text) : State :=
  { s with globals := s.globals.removeLogger s.name name }

end State

/-- A call of a function that changes the global state. -/
inductive Call where
  | setLogLevel (level : LogLevel)
  | initializeQuick (bufferSize : RingSize) (logDirectory logFileName : Text)
      (rollSize : BitVec 32) (terminalOutput : Bool)
  | initializeSafe (logDirectory logFileName : Text) (rollSize : BitVec 32) (terminalOutput : Bool)
  | createLogger (name : Text) (bufferSize : RingSize) (logDirectory logFileName : Text)
      (rollSize : BitVec 32) (terminalOutput : Bool)
  | createSafeLogger (name : Text) (logDirectory logFileName : Text) (rollSize : BitVec 32)
      (terminalOutput : Bool)
  | setDefaultLogger (logger : Option Ref)
  | removeLogger (name : Text)

/-- The effect of a call.  A pointer that is passed must be null or point to a logger that has been
constructed; the caller keeps it alive. -/
def State.call (s : State) : Call → Option State
  | .setLogLevel level => some (s.setLogLevel level)
  | .initializeQuick bufferSize logDirectory logFileName rollSize terminalOutput =>
    some (s.initializeQuick bufferSize logDirectory logFileName rollSize terminalOutput)
  | .initializeSafe logDirectory logFileName rollSize terminalOutput =>
    some (s.initializeSafe logDirectory logFileName rollSize terminalOutput)
  | .createLogger name bufferSize logDirectory logFileName rollSize terminalOutput =>
    some (s.createLogger name bufferSize logDirectory logFileName rollSize terminalOutput)
  | .createSafeLogger name logDirectory logFileName rollSize terminalOutput =>
    some (s.createSafeLogger name logDirectory logFileName rollSize terminalOutput)
  | .setDefaultLogger logger =>
    if ∀ l ∈ logger, l < s.allocated then some (s.setDefaultLogger logger) else none
  | .removeLogger name => some (s.removeLogger name)

/-- Any sequence of calls. -/
def machine : Machine State Call where
  init := .init
  step := State.call

/-- The configuration of the new default logger of a call of `initializeQuick` or
`initializeSafe`. -/
def Call.initializes : Call → Option Config
  | .initializeQuick bufferSize logDirectory logFileName rollSize terminalOutput =>
    some ⟨some bufferSize, logDirectory, logFileName, rollSize, terminalOutput⟩
  | .initializeSafe logDirectory logFileName rollSize terminalOutput =>
    some ⟨none, logDirectory, logFileName, rollSize, terminalOutput⟩
  | _ => none

/-- The name and the configuration of the logger that a call of `createLogger` or `createSafeLogger`
registers. -/
def Call.creates : Call → Option (Text × Config)
  | .createLogger name bufferSize logDirectory logFileName rollSize terminalOutput =>
    some (name, ⟨some bufferSize, logDirectory, logFileName, rollSize, terminalOutput⟩)
  | .createSafeLogger name logDirectory logFileName rollSize terminalOutput =>
    some (name, ⟨none, logDirectory, logFileName, rollSize, terminalOutput⟩)
  | _ => none

/-- What a call can do. -/
theorem call_cases {s s' : State} {c : Call} (h : s.call c = some s') :
    (∃ level, c = .setLogLevel level ∧ s' = s.setLogLevel level) ∨
    (∃ impl, c.initializes = some impl ∧ s' = s.makeDefault impl) ∨
    (∃ name impl, c.creates = some (name, impl) ∧ s' = s.create name impl) ∨
    (c = .setDefaultLogger none ∧ s' = s) ∨
    (∃ l, c = .setDefaultLogger (some l) ∧ l < s.allocated ∧ s' = s.setDefaultLogger (some l)) ∨
    (∃ name, c = .removeLogger name ∧ s' = s.removeLogger name) := by
  cases c with
  | setLogLevel level => exact .inl ⟨level, rfl, (Option.some.inj h).symm⟩
  | initializeQuick => exact .inr (.inl ⟨_, rfl, (Option.some.inj h).symm⟩)
  | initializeSafe => exact .inr (.inl ⟨_, rfl, (Option.some.inj h).symm⟩)
  | createLogger => exact .inr (.inr (.inl ⟨_, _, rfl, (Option.some.inj h).symm⟩))
  | createSafeLogger => exact .inr (.inr (.inl ⟨_, _, rfl, (Option.some.inj h).symm⟩))
  | setDefaultLogger logger =>
    obtain ⟨hlt, h⟩ := Option.ite_none_right_eq_some.1 h
    cases logger with
    | none => exact .inr (.inr (.inr (.inl ⟨rfl, (Option.some.inj h).symm⟩)))
    | some l =>
      exact .inr (.inr (.inr (.inr (.inl ⟨l, rfl, hlt l rfl, (Option.some.inj h).symm⟩))))
  | removeLogger name =>
    exact .inr (.inr (.inr (.inr (.inr ⟨name, rfl, (Option.some.inj h).symm⟩))))

/-! ## What the operations do -/

section Operations

variable {s : State} {name : Text} {impl : Config} {l d : Ref} {level : LogLevel}

theorem loggers_makeLogger (h : l < s.allocated) :
    (s.makeLogger name impl).loggers l = s.loggers l := by
  simp [State.makeLogger, h.ne]

theorem loggers_makeLogger_self :
    (s.makeLogger name impl).loggers s.allocated = ⟨name, impl, .debug⟩ := by
  simp [State.makeLogger]

theorem setLogLevel_none (hd : s.getDefaultLogger = none) :
    s.setLogLevel level = { s with globals := { s.globals with logLevel := level } } := by
  have hd' : s.globals.defaultLogger = none := hd
  simp [State.setLogLevel, hd']

theorem setLogLevel_some (hd : s.getDefaultLogger = some d) :
    s.setLogLevel level =
      { s with
        globals := { s.globals with logLevel := level }
        loggers := Function.update s.loggers d { s.loggers d with level } } := by
  have hd' : s.globals.defaultLogger = some d := hd
  simp [State.setLogLevel, State.setLevel, hd']

theorem name_setLogLevel : (s.setLogLevel level).name l = s.name l := by
  cases hd : s.getDefaultLogger with
  | none => rw [setLogLevel_none hd, State.name, State.name]
  | some d =>
    rw [setLogLevel_some hd]
    unfold State.name
    by_cases h : l = d
    · subst h
      simp
    · simp [h]

theorem setLogLevel_globals (s : State) (level : LogLevel) :
    (s.setLogLevel level).globals = { s.globals with logLevel := level } ∧
      (s.setLogLevel level).allocated = s.allocated := by
  cases hd : s.getDefaultLogger with
  | none => simp [setLogLevel_none hd]
  | some d => simp [setLogLevel_some hd]

theorem getLogger_removeLogger (n : Text) :
    (s.removeLogger name).getLogger n = if n = name then none else s.getLogger n := by
  unfold State.getLogger State.removeLogger
  rw [Globals.removeLogger_registry, Function.update_apply]

theorem getDefaultLogger_removeLogger :
    (s.removeLogger name).getDefaultLogger =
      s.getDefaultLogger.filter fun d => ¬((s.getLogger name).isSome ∧ s.name d = name) :=
  Globals.removeLogger_default ..

theorem removeLogger_logLevel : (s.removeLogger name).globals.logLevel = s.globals.logLevel := by
  unfold State.removeLogger Globals.removeLogger
  cases s.globals.registry name with
  | none => rfl
  | some e =>
    unfold Globals.clearDefault
    cases s.globals.defaultLogger with
    | none => rfl
    | some d =>
      by_cases hname : s.name d = name
      · simp [hname, Globals.erase, Globals.storeDefault]
      · simp [hname, Globals.erase]

end Operations

end Registry

end ZephyrLog
