import Mathlib.Data.Fintype.Basic
import ZephyrLog.AsyncLogger.Safe.Model
import ZephyrLog.FileWriter.Model
import ZephyrLog.Registry.Model
import ZephyrLog.RingBuffer.Model

/-!
# Threads that share the default logger

The whole program: any number of threads that log through the macros of the default logger, replace
it, and hold pointers to loggers, with the worker of every logger and the files.  A thread is at one
point of the function it calls, `Prog`, after the `std::shared_ptr`s that go out of scope there,
`Cleanup`.  A step is one atomic operation on `g_defaultLogger` or on a level, one critical section
of the registry up to the release of the entry it replaces, or one step of a logger.

A logger is destroyed by the thread that gives up its last `std::shared_ptr`.  `Owned` counts these
pointers: in `g_defaultLogger`, in the registry, in the local variables of a function and in the
variables of the caller.  `removeLogger` is not called here.  When the program exits, `g_registry`
and `g_defaultLogger` give up their pointers; then `g_defaultLogger` is null.

The last four fields of `System` are history: no step reads them.
-/

namespace ZephyrLog

namespace Logging

/-- One use of a macro of the default logger. -/
structure LogCall (T : Type) where
  thread : T
  number : ℕ
  level : LogLevel
  line : Text
  /-- How often the default logger had been stored when the call began. -/
  start : ℕ
  deriving DecidableEq

/-- What becomes of a logger that has been registered. -/
inductive Next where
  /-- `setDefaultLogger` stores it. -/
  | store
  /-- `createLogger` and `createSafeLogger` return it. -/
  | keep
  deriving DecidableEq

/-- The next operation of a thread. -/
inductive Prog (T : Type) where
  | idle
  /-- `getLogLevel`: `std::atomic_load(&g_defaultLogger)` -/
  | loadLevel (c : LogCall T)
  /-- `def->level()` -/
  | readLevel (c : LogCall T) (l : Ref)
  /-- `g_logLevel.load()` -/
  | readGlobalLevel (c : LogCall T)
  /-- `ZephyrLog::operator==`: `std::atomic_load(&g_defaultLogger)` -/
  | loadLogger (c : LogCall T)
  /-- `logger->add(std::move(logline))` -/
  | add (c : LogCall T) (l : Ref)
  /-- The next operation is one of the logger's `add`. -/
  | adding (c : LogCall T) (l : Ref)
  | finish (c : LogCall T)
  /-- `setLogLevel`: `std::atomic_load(&g_defaultLogger)` -/
  | loadDefault (level : LogLevel)
  | setLevel (level : LogLevel) (l : Ref)
  /-- The last operation of the constructor of `AsyncLogger`. -/
  | construct (l : Ref) (next : Next)
  /-- `g_registry[name] = logger` under the mutex. -/
  | register (l : Ref) (next : Next)
  | unlock (l : Ref) (next : Next)
  /-- `std::atomic_store(&g_defaultLogger, std::move(logger))` -/
  | store (l : Ref)
  deriving DecidableEq

/-- What is left to do for the pointers that go out of scope. -/
inductive Cleanup where
  | release (l : Ref)
  /-- The destructor begins. -/
  | destroy (l : Ref)
  | shutDown (l : Ref)
  | join (l : Ref)
  deriving DecidableEq

/-- The pointer of a local variable. -/
def Prog.refs {T : Type} : Prog T → List Ref
  | .readLevel _ l => [l]
  | .add _ l => [l]
  | .adding _ l => [l]
  | .setLevel _ l => [l]
  | .construct l _ => [l]
  | .register l _ => [l]
  | .unlock l _ => [l]
  | .store l => [l]
  | _ => []

/-- The pointers that an operation at the end of a scope still holds. -/
def Cleanup.refs : Cleanup → List Ref
  | .release l => [l]
  | _ => []

/-- A thread: what it has left to do at the end of a scope, and its next operation. -/
structure Thread (T : Type) where
  cleanup : List Cleanup
  prog : Prog T
  /-- The pointers in the variables of the caller. -/
  held : List Ref

/-- The pointers of a thread. -/
def Thread.refs {T : Type} (th : Thread T) : List Ref :=
  th.cleanup.flatMap Cleanup.refs ++ th.prog.refs ++ th.held

/-! ## Loggers -/

/-- An `AsyncLogger` on a `RingBuffer`: its worker holds the line that `tryPop` has returned until
it has written it.  When the worker stops is left open. -/
structure Quick (T : Type) where
  ring : RingBuffer.System T Text
  owner : AsyncLogger.Owner
  hand : Option (Cell (Entry Text))

/-- `AsyncLogger` without its writer. -/
inductive Impl (T : Type) where
  | quick (logger : Quick T)
  | safe (logger : AsyncLogger.Safe.System T Text)

/-- The text of a line.  Neither buffer returns another cell. -/
def cellText {β : Type} (text : β → Text) : Cell β → Text
  | .line b => text b
  | _ => []

namespace Impl

variable {T : Type}

/-- The constructor, up to the start of the worker. -/
def new (T : Type) : Option RingSize → Impl T
  | some bufferSize => .quick ⟨.init bufferSize.val.toNat, .constructing, none⟩
  | none => .safe (.new .init)

/-- How far the thread that constructs or destroys the logger is. -/
def owner : Impl T → AsyncLogger.Owner
  | .quick q => q.owner
  | .safe a => a.owner

/-- The thread `t` is inside `add`. -/
def Adding (t : T) : Impl T → Prop
  | .quick q => q.ring.producers t ≠ .idle
  | .safe a => a.buffer.producers t ≠ .idle

/-- The line that the worker writes next. -/
def pending : Impl T → Option Text
  | .quick q => q.hand.map (cellText Entry.line)
  | .safe a => match a.worker with
    | .write _ => some (cellText QueueBuffer.Push.line a.buffer.logline)
    | _ => none

variable [DecidableEq T]

instance (t : T) : (m : Impl T) → Decidable (m.Adding t)
  | .quick q => inferInstanceAs (Decidable (q.ring.producers t ≠ .idle))
  | .safe a => inferInstanceAs (Decidable (a.buffer.producers t ≠ .idle))

/-- A step of the logger: of a call of `add`, of its worker, of its constructor or destructor. -/
def step : Impl T → AsyncLogger.Label T Text → Option (Impl T)
  | .quick q, .add t line => (q.ring.step (.claim t line)).map fun r => .quick { q with ring := r }
  | .quick q, .produce t => (q.ring.step (.store t)).map fun r => .quick { q with ring := r }
  | .quick _, .badAlloc _ => none
  | .quick q, .work =>
    if q.owner = .joined then none
    else match q.hand with
      | some _ => some (.quick { q with hand := none })
      | none => some (.quick { q with ring := q.ring.afterPop, hand := q.ring.ring.tryPop.1 })
  | .quick q, .own => match q.owner with
    | .constructing => some (.quick { q with owner := .running })
    | .destroying => some (.quick { q with owner := .joining })
    | .joining => if q.hand = none then some (.quick { q with owner := .joined }) else none
    | _ => none
  | .quick q, .destroy =>
    if q.owner = .running then some (.quick { q with owner := .destroying }) else none
  | .safe a, label => (a.step label).map .safe

end Impl

/-- `Logger`: its members, with those of its `AsyncLogger`. -/
structure Logger (T : Type) where
  name : Text
  level : LogLevel
  writer : FileWriter
  impl : Impl T

/-! ## The program -/

/-- A call of `Logger::add`. -/
structure Added (T : Type) where
  call : LogCall T
  logger : Ref
  deriving DecidableEq

/-- The end of a call that passed its level check. -/
structure Returned (T : Type) where
  call : LogCall T
  /-- How often the default logger had been stored. -/
  stop : ℕ
  deriving DecidableEq

/-- The state of the program, and the history of its calls. -/
structure System (T : Type) where
  globals : Globals Ref
  /-- Who holds `g_registryMutex`. -/
  mutex : Option T
  /-- The `Logger` at each address. -/
  loggers : Ref → Logger T
  allocated : ℕ
  threads : T → Thread T
  world : World
  /-- The loggers stored in `g_defaultLogger`. -/
  stores : List Ref
  /-- How many logging calls have begun. -/
  calls : ℕ
  added : List (Added T)
  returned : List (Returned T)

/-- What a thread or a worker does next. -/
inductive Label (T : Type) where
  /-- Thread `t` uses a macro of the default logger. -/
  | log (t : T) (level : LogLevel) (line : Text)
  | setLogLevel (t : T) (level : LogLevel)
  /-- `initializeQuick` or `initializeSafe`. -/
  | makeDefault (t : T) (impl : Config)
  /-- `createLogger` or `createSafeLogger`. -/
  | create (t : T) (name : Text) (impl : Config)
  | setDefaultLogger (t : T) (logger : Option Ref)
  | getDefaultLogger (t : T)
  /-- A variable of the caller goes out of scope. -/
  | drop (t : T) (l : Ref)
  /-- The program exits: an entry of `g_registry` is destroyed. -/
  | dropEntry (t : T) (name : Text)
  /-- The program exits: `g_defaultLogger` is destroyed. -/
  | dropDefault (t : T)
  /-- Thread `t` executes its next operation. -/
  | run (t : T)
  | badAlloc (t : T)
  /-- The worker of the logger `l` executes its next operation. -/
  | work (l : Ref)

namespace System

variable {T : Type}

/-- The files `content` exist before the program runs. -/
def init (content : Text → Option (List Byte)) : System T :=
  { globals := .init, mutex := none,
    loggers := fun _ => ⟨[], .debug, ⟨0, 0, 0, [], false, none⟩, .safe (.new .init)⟩,
    allocated := 0,
    threads := fun _ => ⟨[], .idle, []⟩, world := ⟨⟨content, []⟩, []⟩, stores := [], calls := 0,
    added := [], returned := [] }

/-- Some `std::shared_ptr` points to `l`.  An entry of the registry is under its logger's name. -/
def Owned (s : System T) (l : Ref) : Prop :=
  s.globals.defaultLogger = some l ∨ s.globals.registry (s.loggers l).name = some l ∨
    ∃ t, l ∈ (s.threads t).refs

instance [Fintype T] (s : System T) (l : Ref) : Decidable (s.Owned l) :=
  inferInstanceAs (Decidable (_ ∨ _ ∨ ∃ t, l ∈ (s.threads t).refs))

/-- The logger `l` goes on as `m`. -/
def setImpl (s : System T) (l : Ref) (m : Impl T) : System T :=
  { s with loggers := Function.update s.loggers l { s.loggers l with impl := m } }

/-- `std::make_shared<Logger>(name, …)`: the writer opens its first file and the worker starts. -/
def make (s : System T) (name : Text) (c : Config) : System T :=
  let (writer, world) := FileWriter.new c.logDirectory c.logFileName c.rollSize c.terminalOutput
    s.world
  { s with
    loggers := Function.update s.loggers s.allocated ⟨name, .debug, writer, .new T c.bufferSize⟩
    allocated := s.allocated + 1
    world }

/-- The worker of `l` writes `line`. -/
def write (s : System T) (l : Ref) (line : Text) : System T :=
  let (writer, world) := (s.loggers l).writer.write s.world line
  { s with loggers := Function.update s.loggers l { s.loggers l with writer }, world }

/-- The destructor of `l` closes the file. -/
def closeWriter (s : System T) (l : Ref) : System T :=
  { s with
    loggers := Function.update s.loggers l
      { s.loggers l with writer := (s.loggers l).writer.close } }

/-- Where a call goes after reading `level`. -/
def checked (c : LogCall T) (level : LogLevel) : Prog T :=
  if level.value ≤ c.level.value then .loadLogger c else .idle

variable [DecidableEq T]

/-- The thread `t` goes on as `th`. -/
def setThread (s : System T) (t : T) (th : Thread T) : System T :=
  { s with threads := Function.update s.threads t th }

/-- Thread `t` goes on with `p`, after the pointers `refs` have gone out of scope. -/
def goto (s : System T) (t : T) (p : Prog T) (refs : List Ref) : System T :=
  s.setThread t { s.threads t with cleanup := refs.map .release, prog := p }

/-- Thread `t` goes on with `cleanup`. -/
def setCleanup (s : System T) (t : T) (cleanup : List Cleanup) : System T :=
  s.setThread t { s.threads t with cleanup }

/-- Thread `t` executes the operation `p`. -/
def runProg (s : System T) (t : T) : Prog T → Option (System T)
  | .idle => none
  | .loadLevel c => some (s.goto t (match s.globals.defaultLogger with
    | some l => .readLevel c l
    | none => .readGlobalLevel c) [])
  | .readLevel c l => some (s.goto t (checked c (s.loggers l).level) [l])
  | .readGlobalLevel c => some (s.goto t (checked c s.globals.logLevel) [])
  | .loadLogger c => some (s.goto t (match s.globals.defaultLogger with
    | some l => .add c l
    | none => .finish c) [])
  | .add c l => ((s.loggers l).impl.step (.add t c.line)).map fun m =>
    { (s.setImpl l m).goto t (.adding c l) [] with added := s.added ++ [⟨c, l⟩] }
  | .adding c l => ((s.loggers l).impl.step (.produce t)).map fun m =>
    if m.Adding t then s.setImpl l m else (s.setImpl l m).goto t (.finish c) [l]
  | .finish c =>
    some { s.goto t .idle [] with returned := s.returned ++ [⟨c, s.stores.length⟩] }
  | .loadDefault level => some (s.goto t (match s.globals.defaultLogger with
    | some l => .setLevel level l
    | none => .idle) [])
  | .setLevel level l =>
    some { s.goto t .idle [l] with
      loggers := Function.update s.loggers l { s.loggers l with level } }
  | .construct l next => ((s.loggers l).impl.step .own).map fun m =>
    (s.setImpl l m).goto t (.register l next) []
  | .register l next =>
    if s.mutex = none then
      some { s.goto t (.unlock l next) (s.globals.registry (s.loggers l).name).toList with
        globals := s.globals.register (s.loggers l).name l
        mutex := some t }
    else none
  | .unlock l .store => some { s.goto t (.store l) [] with mutex := none }
  | .unlock l .keep =>
    some { s.setThread t ⟨[], .idle, l :: (s.threads t).held⟩ with mutex := none }
  | .store l =>
    some { s.goto t .idle s.globals.defaultLogger.toList with
      globals := s.globals.storeDefault (some l)
      stores := s.stores ++ [l] }

/-- Thread `t` is between two calls. -/
def Idle (s : System T) (t : T) : Prop := (s.threads t).cleanup = [] ∧ (s.threads t).prog = .idle

instance (s : System T) (t : T) : Decidable (s.Idle t) := inferInstanceAs (Decidable (_ ∧ _))

variable [Fintype T]

/-- Thread `t` executes the operation `c` for a pointer that went out of scope. -/
def runCleanup (s : System T) (t : T) (rest : List Cleanup) : Cleanup → Option (System T)
  | .release l =>
    if (s.setCleanup t rest).Owned l then some (s.setCleanup t rest)
    else some (s.setCleanup t (.destroy l :: .shutDown l :: .join l :: rest))
  | .destroy l => ((s.loggers l).impl.step .destroy).map fun m => (s.setImpl l m).setCleanup t rest
  | .shutDown l => ((s.loggers l).impl.step .own).map fun m => (s.setImpl l m).setCleanup t rest
  | .join l => ((s.loggers l).impl.step .own).map fun m =>
    ((s.setImpl l m).closeWriter l).setCleanup t rest

/-- The next operation of thread `t`: the ends of scopes come first. -/
def run (s : System T) (t : T) : Option (System T) :=
  match (s.threads t).cleanup with
  | c :: rest => s.runCleanup t rest c
  | [] => s.runProg t (s.threads t).prog

/-- Thread `t` makes a call. -/
def call (s : System T) (t : T) (after : System T) : Option (System T) :=
  if s.Idle t then some after else none

/-- One step of a thread or of a worker. -/
def step (s : System T) : Label T → Option (System T)
  | .log t level line => s.call t
    { s.goto t (.loadLevel ⟨t, s.calls, level, line, s.stores.length⟩) [] with
      calls := s.calls + 1 }
  | .setLogLevel t level => s.call t
    { s.goto t (.loadDefault level) [] with globals := { s.globals with logLevel := level } }
  | .makeDefault t c => s.call t
    ((s.make (ascii "default") c).goto t (.construct s.allocated .store) [])
  | .create t name c => s.call t ((s.make name c).goto t (.construct s.allocated .keep) [])
  | .setDefaultLogger t none => s.call t s
  | .setDefaultLogger t (some l) =>
    if l ∈ (s.threads t).held then s.call t (s.goto t (.register l .store) []) else none
  | .getDefaultLogger t => s.call t
    (s.setThread t ⟨[], .idle, s.globals.defaultLogger.toList ++ (s.threads t).held⟩)
  | .drop t l =>
    if l ∈ (s.threads t).held then
      s.call t (s.setThread t ⟨[.release l], .idle, (s.threads t).held.erase l⟩)
    else none
  | .dropEntry t name => (s.globals.registry name).bind fun l =>
    s.call t { s.goto t .idle [l] with globals := s.globals.erase name }
  | .dropDefault t => s.globals.defaultLogger.bind fun l =>
    s.call t { s.goto t .idle [l] with globals := s.globals.storeDefault none }
  | .run t => s.run t
  | .badAlloc t => match (s.threads t).cleanup, (s.threads t).prog with
    | [], .adding _ l => ((s.loggers l).impl.step (.badAlloc t)).map fun m => s.setImpl l m
    | _, _ => none
  | .work l =>
    if l < s.allocated then
      ((s.loggers l).impl.step .work).map fun m => match (s.loggers l).impl.pending with
        | none => s.setImpl l m
        | some line => (s.setImpl l m).write l line
    else none

end System

/-- The program, started with the files `content`. -/
def machine (T : Type) [Fintype T] [DecidableEq T] (content : Text → Option (List Byte)) :
    Machine (System T) (Label T) where
  init := .init content
  step := System.step

end Logging

end ZephyrLog
