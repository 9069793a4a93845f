import ZephyrLog.Logging.Model

/-!
# The steps of the program

`Stepped` names every way in which a step can go, with what held before it; the proofs about runs
are by cases on it.
-/

namespace ZephyrLog

namespace Logging

variable {T : Type} [DecidableEq T]

/-- The operation that thread `t` executes next. -/
def System.At (s : System T) (t : T) (p : Prog T) : Prop :=
  (s.threads t).cleanup = [] ∧ (s.threads t).prog = p

/-- The steps of the program, by the call or the operation. -/
inductive Stepped (s : System T) : Label T → System T → Prop
  | log (t : T) (level : LogLevel) (line : Text) (h : s.Idle t) :
    Stepped s (.log t level line)
      { s.goto t (.loadLevel ⟨t, s.calls, level, line, s.stores.length⟩) [] with
        calls := s.calls + 1 }
  | setLogLevel (t : T) (level : LogLevel) (h : s.Idle t) : Stepped s (.setLogLevel t level)
      { s.goto t (.loadDefault level) [] with globals := { s.globals with logLevel := level } }
  | makeDefault (t : T) (c : Config) (h : s.Idle t) : Stepped s (.makeDefault t c)
      ((s.make (ascii "default") c).goto t (.construct s.allocated .store) [])
  | create (t : T) (name : Text) (c : Config) (h : s.Idle t) : Stepped s (.create t name c)
      ((s.make name c).goto t (.construct s.allocated .keep) [])
  | setDefaultNull (t : T) (h : s.Idle t) : Stepped s (.setDefaultLogger t none) s
  | setDefault (t : T) (l : Ref) (h : s.Idle t) (hl : l ∈ (s.threads t).held) :
    Stepped s (.setDefaultLogger t (some l)) (s.goto t (.register l .store) [])
  | getDefault (t : T) (h : s.Idle t) : Stepped s (.getDefaultLogger t)
      (s.setThread t ⟨[], .idle, s.globals.defaultLogger.toList ++ (s.threads t).held⟩)
  | drop (t : T) (l : Ref) (h : s.Idle t) (hl : l ∈ (s.threads t).held) : Stepped s (.drop t l)
      (s.setThread t ⟨[.release l], .idle, (s.threads t).held.erase l⟩)
  | dropEntry (t : T) (name : Text) (l : Ref) (h : s.Idle t)
      (hl : s.globals.registry name = some l) : Stepped s (.dropEntry t name)
      { s.goto t .idle [l] with globals := s.globals.erase name }
  | dropDefault (t : T) (l : Ref) (h : s.Idle t) (hl : s.globals.defaultLogger = some l) :
    Stepped s (.dropDefault t) { s.goto t .idle [l] with globals := s.globals.storeDefault none }
  | release (t : T) (l : Ref) (rest : List Cleanup)
      (h : (s.threads t).cleanup = .release l :: rest) (ho : (s.setCleanup t rest).Owned l) :
    Stepped s (.run t) (s.setCleanup t rest)
  | releaseLast (t : T) (l : Ref) (rest : List Cleanup)
      (h : (s.threads t).cleanup = .release l :: rest) (ho : ¬ (s.setCleanup t rest).Owned l) :
    Stepped s (.run t) (s.setCleanup t (.destroy l :: .shutDown l :: .join l :: rest))
  | destroy (t : T) (l : Ref) (rest : List Cleanup) (m : Impl T)
      (h : (s.threads t).cleanup = .destroy l :: rest)
      (hm : (s.loggers l).impl.step .destroy = some m) :
    Stepped s (.run t) ((s.setImpl l m).setCleanup t rest)
  | shutDown (t : T) (l : Ref) (rest : List Cleanup) (m : Impl T)
      (h : (s.threads t).cleanup = .shutDown l :: rest)
      (hm : (s.loggers l).impl.step .own = some m) :
    Stepped s (.run t) ((s.setImpl l m).setCleanup t rest)
  | join (t : T) (l : Ref) (rest : List Cleanup) (m : Impl T)
      (h : (s.threads t).cleanup = .join l :: rest) (hm : (s.loggers l).impl.step .own = some m) :
    Stepped s (.run t) (((s.setImpl l m).closeWriter l).setCleanup t rest)
  | loadLevel (t : T) (c : LogCall T) (h : s.At t (.loadLevel c)) : Stepped s (.run t)
      (s.goto t (match s.globals.defaultLogger with
        | some l => .readLevel c l
        | none => .readGlobalLevel c) [])
  | readLevel (t : T) (c : LogCall T) (l : Ref) (h : s.At t (.readLevel c l)) : Stepped s (.run t)
      (s.goto t (System.checked c (s.loggers l).level) [l])
  | readGlobalLevel (t : T) (c : LogCall T) (h : s.At t (.readGlobalLevel c)) : Stepped s (.run t)
      (s.goto t (System.checked c s.globals.logLevel) [])
  | loadLogger (t : T) (c : LogCall T) (h : s.At t (.loadLogger c)) : Stepped s (.run t)
      (s.goto t (match s.globals.defaultLogger with
        | some l => .add c l
        | none => .finish c) [])
  | add (t : T) (c : LogCall T) (l : Ref) (m : Impl T) (h : s.At t (.add c l))
      (hm : (s.loggers l).impl.step (.add t c.line) = some m) : Stepped s (.run t)
      { (s.setImpl l m).goto t (.adding c l) [] with added := s.added ++ [⟨c, l⟩] }
  | adding (t : T) (c : LogCall T) (l : Ref) (m : Impl T) (h : s.At t (.adding c l))
      (hm : (s.loggers l).impl.step (.produce t) = some m) (ha : m.Adding t) : Stepped s (.run t)
      (s.setImpl l m)
  | addReturned (t : T) (c : LogCall T) (l : Ref) (m : Impl T) (h : s.At t (.adding c l))
      (hm : (s.loggers l).impl.step (.produce t) = some m) (ha : ¬ m.Adding t) : Stepped s (.run t)
      ((s.setImpl l m).goto t (.finish c) [l])
  | finish (t : T) (c : LogCall T) (h : s.At t (.finish c)) : Stepped s (.run t)
      { s.goto t .idle [] with returned := s.returned ++ [⟨c, s.stores.length⟩] }
  | loadDefault (t : T) (level : LogLevel) (h : s.At t (.loadDefault level)) :
    Stepped s (.run t)
      (s.goto t (match s.globals.defaultLogger with
        | some l => .setLevel level l
        | none => .idle) [])
  | setLevel (t : T) (level : LogLevel) (l : Ref) (h : s.At t (.setLevel level l)) :
    Stepped s (.run t) { s.goto t .idle [l] with
      loggers := Function.update s.loggers l { s.loggers l with level } }
  | construct (t : T) (l : Ref) (next : Next) (m : Impl T) (h : s.At t (.construct l next))
      (hm : (s.loggers l).impl.step .own = some m) :
    Stepped s (.run t) ((s.setImpl l m).goto t (.register l next) [])
  | register (t : T) (l : Ref) (next : Next) (h : s.At t (.register l next))
      (hm : s.mutex = none) : Stepped s (.run t)
      { s.goto t (.unlock l next) (s.globals.registry (s.loggers l).name).toList with
        globals := s.globals.register (s.loggers l).name l
        mutex := some t }
  | unlockStore (t : T) (l : Ref) (h : s.At t (.unlock l .store)) :
    Stepped s (.run t) { s.goto t (.store l) [] with mutex := none }
  | unlockKeep (t : T) (l : Ref) (h : s.At t (.unlock l .keep)) : Stepped s (.run t)
      { s.setThread t ⟨[], .idle, l :: (s.threads t).held⟩ with mutex := none }
  | store (t : T) (l : Ref) (h : s.At t (.store l)) : Stepped s (.run t)
      { s.goto t .idle s.globals.defaultLogger.toList with
        globals := s.globals.storeDefault (some l)
        stores := s.stores ++ [l] }
  | badAlloc (t : T) (c : LogCall T) (l : Ref) (m : Impl T) (h : s.At t (.adding c l))
      (hm : (s.loggers l).impl.step (.badAlloc t) = some m) :
    Stepped s (.badAlloc t) (s.setImpl l m)
  | work (l : Ref) (m : Impl T) (hl : l < s.allocated) (hm : (s.loggers l).impl.step .work = some m)
      (hp : (s.loggers l).impl.pending = none) : Stepped s (.work l) (s.setImpl l m)
  | write (l : Ref) (m : Impl T) (line : Text) (hl : l < s.allocated)
      (hm : (s.loggers l).impl.step .work = some m) (hp : (s.loggers l).impl.pending = some line) :
    Stepped s (.work l) ((s.setImpl l m).write l line)

namespace Stepped

variable {s s' : System T}

theorem of_call {t : T} {after : System T} (h : s.call t after = some s') :
    s.Idle t ∧ s' = after := by
  obtain ⟨hidle, h⟩ := Option.ite_none_right_eq_some.1 h
  exact ⟨hidle, (Option.some.inj h).symm⟩

theorem of_runProg {t : T} {p : Prog T} (hp : s.At t p) (h : s.runProg t p = some s') :
    Stepped s (.run t) s' := by
  cases p with
  | idle => cases h
  | loadLevel c => exact Option.some.inj h ▸ .loadLevel t c hp
  | readLevel c l => exact Option.some.inj h ▸ .readLevel t c l hp
  | readGlobalLevel c => exact Option.some.inj h ▸ .readGlobalLevel t c hp
  | loadLogger c => exact Option.some.inj h ▸ .loadLogger t c hp
  | add c l =>
    obtain ⟨m, hm, rfl⟩ := Option.map_eq_some_iff.1 h
    exact .add t c l m hp hm
  | adding c l =>
    obtain ⟨m, hm, rfl⟩ := Option.map_eq_some_iff.1 h
    by_cases ha : m.Adding t
    · rw [if_pos ha]
      exact .adding t c l m hp hm ha
    · rw [if_neg ha]
      exact .addReturned t c l m hp hm ha
  | finish c => exact Option.some.inj h ▸ .finish t c hp
  | loadDefault level => exact Option.some.inj h ▸ .loadDefault t level hp
  | setLevel level l => exact Option.some.inj h ▸ .setLevel t level l hp
  | construct l next =>
    obtain ⟨m, hm, rfl⟩ := Option.map_eq_some_iff.1 h
    exact .construct t l next m hp hm
  | register l next =>
    obtain ⟨hm, h⟩ := Option.ite_none_right_eq_some.1 h
    exact Option.some.inj h ▸ .register t l next hp hm
  | unlock l next =>
    cases next with
    | store => exact Option.some.inj h ▸ .unlockStore t l hp
    | keep => exact Option.some.inj h ▸ .unlockKeep t l hp
  | store l => exact Option.some.inj h ▸ .store t l hp

variable [Fintype T]

theorem of_runCleanup {t : T} {c : Cleanup} {rest : List Cleanup}
    (hc : (s.threads t).cleanup = c :: rest) (h : s.runCleanup t rest c = some s') :
    Stepped s (.run t) s' := by
  cases c with
  | release l =>
    simp only [System.runCleanup] at h
    by_cases ho : (s.setCleanup t rest).Owned l
    · rw [if_pos ho] at h
      exact Option.some.inj h ▸ .release t l rest hc ho
    · rw [if_neg ho] at h
      exact Option.some.inj h ▸ .releaseLast t l rest hc ho
  | destroy l =>
    obtain ⟨m, hm, rfl⟩ := Option.map_eq_some_iff.1 h
    exact .destroy t l rest m hc hm
  | shutDown l =>
    obtain ⟨m, hm, rfl⟩ := Option.map_eq_some_iff.1 h
    exact .shutDown t l rest m hc hm
  | join l =>
    obtain ⟨m, hm, rfl⟩ := Option.map_eq_some_iff.1 h
    exact .join t l rest m hc hm

theorem of_step {label : Label T} (h : s.step label = some s') : Stepped s label s' := by
  cases label with
  | log t level line =>
    obtain ⟨hidle, rfl⟩ := of_call h
    exact .log t level line hidle
  | setLogLevel t level =>
    obtain ⟨hidle, rfl⟩ := of_call h
    exact .setLogLevel t level hidle
  | makeDefault t c =>
    obtain ⟨hidle, rfl⟩ := of_call h
    exact .makeDefault t c hidle
  | create t name c =>
    obtain ⟨hidle, rfl⟩ := of_call h
    exact .create t name c hidle
  | setDefaultLogger t logger =>
    cases logger with
    | none =>
      obtain ⟨hidle, rfl⟩ := of_call h
      exact .setDefaultNull t hidle
    | some l =>
      obtain ⟨hl, h⟩ := Option.ite_none_right_eq_some.1 h
      obtain ⟨hidle, rfl⟩ := of_call h
      exact .setDefault t l hidle hl
  | getDefaultLogger t =>
    obtain ⟨hidle, rfl⟩ := of_call h
    exact .getDefault t hidle
  | drop t l =>
    obtain ⟨hl, h⟩ := Option.ite_none_right_eq_some.1 h
    obtain ⟨hidle, rfl⟩ := of_call h
    exact .drop t l hidle hl
  | dropEntry t name =>
    obtain ⟨l, hl, h⟩ := Option.bind_eq_some_iff.1 h
    obtain ⟨hidle, rfl⟩ := of_call h
    exact .dropEntry t name l hidle hl
  | dropDefault t =>
    obtain ⟨l, hl, h⟩ := Option.bind_eq_some_iff.1 h
    obtain ⟨hidle, rfl⟩ := of_call h
    exact .dropDefault t l hidle hl
  | run t =>
    change s.run t = some s' at h
    unfold System.run at h
    cases hc : (s.threads t).cleanup with
    | nil =>
      rw [hc] at h
      exact of_runProg ⟨hc, rfl⟩ h
    | cons c rest =>
      rw [hc] at h
      exact of_runCleanup hc h
  | badAlloc t =>
    simp only [System.step] at h
    split at h
    · next c l hc hp =>
      obtain ⟨m, hm, rfl⟩ := Option.map_eq_some_iff.1 h
      exact .badAlloc t c l m ⟨hc, hp⟩ hm
    · cases h
  | work l =>
    obtain ⟨hl, h⟩ := Option.ite_none_right_eq_some.1 h
    obtain ⟨m, hm, rfl⟩ := Option.map_eq_some_iff.1 h
    cases hp : (s.loggers l).impl.pending with
    | none => exact .work l m hl hm hp
    | some line => exact .write l m line hl hm hp

end Stepped

end Logging

end ZephyrLog
