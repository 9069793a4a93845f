import ZephyrLog.Lib.Keyed
import ZephyrLog.Registry.Model

/-!
# Concurrent calls of the registry's functions

Every thread makes one call.  `setDefaultLogger` takes two steps, the critical section that
registers the logger and, after the mutex has been released, the store of the default.
`removeLogger` holds the mutex over all its steps, and loads and stores the default inside.
`createLogger` and `createSafeLogger` construct the logger before they lock.  `machine` interleaves
the steps in any order, and `perform` is the whole of a call.
-/

namespace ZephyrLog

namespace Registry

/-- A call of one of the functions that lock `g_registryMutex`. -/
inductive Request where
  | setDefaultLogger (logger : Option Ref)
  | removeLogger (name : Text)
  /-- `createLogger` or `createSafeLogger`. -/
  | create (name : Text) (impl : Config)

/-- A logger that exists before the calls, or the one that a call constructs. -/
inductive Object (ι : Type) where
  | old (logger : Ref)
  | made (i : ι)

/-- The names of the loggers that exist before, and the call of every thread. -/
structure Calls (ι : Type) where
  name : Ref → Text
  call : ι → Request

/-- Where a call stands. -/
inductive Point (ι : Type) where
  | start
  /-- `setDefaultLogger` has left its critical section. -/
  | registered
  /-- `removeLogger` has found the entry and holds the mutex from here on. -/
  | found
  | loaded (default : Option (Object ι))
  /-- The default has been cleared if it had to be. -/
  | cleared
  | finished

/-- The call has written its entry. -/
def Point.Committed {ι : Type} : Point ι → Prop
  | .registered => True
  | .finished => True
  | _ => False

/-- The globals, the call that holds the mutex, and the point of every call. -/
structure Shared (ι : Type) where
  globals : Globals (Object ι)
  mutex : Option ι
  point : ι → Point ι

/-- The call `i` goes on to the point `p`. -/
def Shared.goto {ι : Type} [DecidableEq ι] (s : Shared ι) (i : ι) (p : Point ι) : Shared ι :=
  { s with point := Function.update s.point i p }

namespace Calls

variable {ι : Type} (S : Calls ι)

/-- The name of the logger that a pointer leads to. -/
def nameOf : Object ι → Text
  | .old l => S.name l
  | .made i => match S.call i with
    | .create name _ => name
    | _ => []

/-- The whole of the call `i`. -/
def perform (g : Globals (Object ι)) (i : ι) : Globals (Object ι) :=
  match S.call i with
  | .setDefaultLogger logger => g.setDefaultLogger S.nameOf (logger.map .old)
  | .removeLogger name => g.removeLogger S.nameOf name
  | .create name _ => g.register name (.made i)

/-- The calls one after the other. -/
def sequential (g : Globals Ref) (order : List ι) : Globals (Object ι) :=
  order.foldl S.perform (g.map .old)

/-- The entry of the registry that the call `i` writes. -/
def write (i : ι) : Option (Text × Option (Object ι)) :=
  match S.call i with
  | .setDefaultLogger none => none
  | .setDefaultLogger (some l) => some (S.name l, some (.old l))
  | .removeLogger name => some (name, none)
  | .create name _ => some (name, some (.made i))

section Whole

variable {S} {G : Globals (Object ι)} {i : ι} {l : Ref} {name : Text}

/-! ## Whole calls -/

theorem perform_setDefault (hc : S.call i = .setDefaultLogger (some l)) :
    S.perform G i = (G.register (S.name l) (.old l)).storeDefault (some (.old l)) := by
  rw [perform, hc]
  rfl

theorem perform_remove (hc : S.call i = .removeLogger name) :
    S.perform G i = G.removeLogger S.nameOf name := by
  rw [perform, hc]

theorem perform_create {impl : Config} (hc : S.call i = .create name impl) :
    S.perform G i = G.register name (.made i) := by
  rw [perform, hc]

theorem perform_null (hc : S.call i = .setDefaultLogger none) : S.perform G i = G := by
  rw [perform, hc]
  rfl

theorem perform_registry (G : Globals (Object ι)) (i : ι) :
    (S.perform G i).registry = Keyed.put S.write G.registry i := by
  unfold Keyed.put write
  cases hc : S.call i with
  | setDefaultLogger logger =>
    cases logger with
    | none => simp [perform_null hc]
    | some l => simp [perform_setDefault hc, Globals.register, Globals.storeDefault]
  | removeLogger name => simp [perform_remove hc, Globals.removeLogger_registry]
  | create name impl => simp [perform_create hc, Globals.register]

theorem foldl_perform_registry (G : Globals (Object ι)) (order : List ι) :
    (order.foldl S.perform G).registry = order.foldl (Keyed.put S.write) G.registry := by
  induction order generalizing G with
  | nil => rfl
  | cons i order ih =>
    rw [List.foldl_cons, List.foldl_cons, ih, perform_registry]

theorem sequential_concat (g : Globals Ref) (order : List ι) (i : ι) :
    S.sequential g (order ++ [i]) = S.perform (S.sequential g order) i := by
  simp [sequential]

end Whole

/-! ## Steps -/

variable [DecidableEq ι]

/-- The next step of the call `i`; `none` when it waits for the mutex or has returned. -/
def step (s : Shared ι) (i : ι) : Option (Shared ι) :=
  match S.call i, s.point i with
  | .setDefaultLogger none, .start => some (s.goto i .finished)
  | .setDefaultLogger (some l), .start =>
    if s.mutex = none then
      some { s.goto i .registered with globals := s.globals.register (S.name l) (.old l) }
    else none
  | .setDefaultLogger (some l), .registered =>
    some { s.goto i .finished with globals := s.globals.storeDefault (some (.old l)) }
  | .removeLogger name, .start =>
    if s.mutex = none then
      match s.globals.registry name with
      | none => some (s.goto i .finished)
      | some _ => some { s.goto i .found with mutex := some i }
    else none
  | .removeLogger _, .found => some (s.goto i (.loaded s.globals.defaultLogger))
  | .removeLogger name, .loaded d =>
    some { s.goto i .cleared with globals := s.globals.clearDefault S.nameOf d name }
  | .removeLogger name, .cleared =>
    some { s.goto i .finished with globals := s.globals.erase name, mutex := none }
  | .create name _, .start =>
    if s.mutex = none then
      some { s.goto i .finished with globals := s.globals.register name (.made i) }
    else none
  | _, _ => none

/-- The calls all start from the globals `g`. -/
def machine (g : Globals Ref) : Machine (Shared ι) ι where
  init := { globals := g.map .old, mutex := none, point := fun _ => .start }
  step := S.step

/-- The steps of the call `i`, by its function and its point. -/
inductive Stepped (s : Shared ι) (i : ι) : Shared ι → Prop
  | ignored (hc : S.call i = .setDefaultLogger none) (hp : s.point i = .start) :
      Stepped s i (s.goto i .finished)
  | registered (l : Ref) (hc : S.call i = .setDefaultLogger (some l)) (hp : s.point i = .start)
      (hm : s.mutex = none) : Stepped s i
        { s.goto i .registered with globals := s.globals.register (S.name l) (.old l) }
  | stored (l : Ref) (hc : S.call i = .setDefaultLogger (some l)) (hp : s.point i = .registered) :
      Stepped s i { s.goto i .finished with globals := s.globals.storeDefault (some (.old l)) }
  | absent (name : Text) (hc : S.call i = .removeLogger name) (hp : s.point i = .start)
      (hm : s.mutex = none) (hr : s.globals.registry name = none) :
      Stepped s i (s.goto i .finished)
  | found (name : Text) (o : Object ι) (hc : S.call i = .removeLogger name)
      (hp : s.point i = .start) (hm : s.mutex = none) (hr : s.globals.registry name = some o) :
      Stepped s i { s.goto i .found with mutex := some i }
  | loaded (name : Text) (hc : S.call i = .removeLogger name) (hp : s.point i = .found) :
      Stepped s i (s.goto i (.loaded s.globals.defaultLogger))
  | cleared (name : Text) (d : Option (Object ι)) (hc : S.call i = .removeLogger name)
      (hp : s.point i = .loaded d) : Stepped s i
        { s.goto i .cleared with globals := s.globals.clearDefault S.nameOf d name }
  | erased (name : Text) (hc : S.call i = .removeLogger name) (hp : s.point i = .cleared) :
      Stepped s i { s.goto i .finished with globals := s.globals.erase name, mutex := none }
  | created (name : Text) (impl : Config) (hc : S.call i = .create name impl)
      (hp : s.point i = .start) (hm : s.mutex = none) :
      Stepped s i { s.goto i .finished with globals := s.globals.register name (.made i) }

variable {S} {s s' : Shared ι} {i : ι}

theorem stepped (h : S.step s i = some s') : S.Stepped s i s' := by
  unfold step at h
  cases hc : S.call i with
  | setDefaultLogger logger =>
    cases logger with
    | none =>
      cases hp : s.point i <;> simp only [hc, hp, Option.some.injEq, reduceCtorEq] at h
      exact h ▸ .ignored hc hp
    | some l =>
      cases hp : s.point i <;>
        simp only [hc, hp, Option.ite_none_right_eq_some, Option.some.injEq, reduceCtorEq] at h
      · exact h.2 ▸ .registered l hc hp h.1
      · exact h ▸ .stored l hc hp
  | removeLogger name =>
    cases hp : s.point i with
    | start =>
      cases hr : s.globals.registry name <;>
        simp only [hc, hp, hr, Option.ite_none_right_eq_some, Option.some.injEq] at h
      · exact h.2 ▸ .absent name hc hp h.1 hr
      · exact h.2 ▸ .found name _ hc hp h.1 hr
    | found =>
      simp only [hc, hp, Option.some.injEq] at h
      exact h ▸ .loaded name hc hp
    | loaded d =>
      simp only [hc, hp, Option.some.injEq] at h
      exact h ▸ .cleared name d hc hp
    | cleared =>
      simp only [hc, hp, Option.some.injEq] at h
      exact h ▸ .erased name hc hp
    | registered => simp [hc, hp] at h
    | finished => simp [hc, hp] at h
  | create name impl =>
    cases hp : s.point i <;>
      simp only [hc, hp, Option.ite_none_right_eq_some, Option.some.injEq, reduceCtorEq] at h
    exact h.2 ▸ .created name impl hc hp h.1

end Calls

end Registry

end ZephyrLog
