import ZephyrLog.Registry.Model

/-!
# The global log level

`setLogLevel` stores the level in `g_logLevel` and in the default logger, and `getLogLevel` reads
the default logger when there is one.  A new logger has the level `DEBUG`, and a logger that becomes
the default brings its own level with it; nothing copies `g_logLevel` into it.  So the level asked
for survives exactly those changes of the default logger that bring the same level (`level_iff`).
-/

namespace ZephyrLog

namespace Registry

variable {s s' : State} {c : Call} {impl : Config}

/-- The level of the last call of `setLogLevel`, or `DEBUG`. -/
def lastLevel (calls : List Call) : LogLevel :=
  calls.foldl (fun level c => match c with
    | .setLogLevel level => level
    | _ => level) .debug

/-- The level that a logger has when a call makes it the default. -/
def State.bringsLevel (s : State) (c : Call) : Option LogLevel :=
  match c, c.initializes with
  | .setDefaultLogger (some l), _ => some (s.loggers l).level
  | _, some _ => some .debug
  | _, none => none

/-- A call that makes a logger the default makes one that has the level asked for. -/
def BringsLast (calls : List Call) (s : State) (c : Call) : Prop :=
  ∀ level ∈ s.bringsLevel c, level = lastLevel calls

/-- Both copies of the level are the one asked for. -/
structure Kept (calls : List Call) (s : State) : Prop where
  stored : s.globals.logLevel = lastLevel calls
  current : ∀ d, s.getDefaultLogger = some d → (s.loggers d).level = lastLevel calls
  lt : ∀ d, s.getDefaultLogger = some d → d < s.allocated

theorem lastLevel_concat (calls : List Call) (hc : ∀ level, c ≠ .setLogLevel level) :
    lastLevel (calls ++ [c]) = lastLevel calls := by
  unfold lastLevel
  rw [List.foldl_append]
  cases c with
  | setLogLevel level => exact absurd rfl (hc level)
  | _ => rfl

theorem lastLevel_setLogLevel (calls : List Call) (level : LogLevel) :
    lastLevel (calls ++ [.setLogLevel level]) = level := by
  unfold lastLevel
  rw [List.foldl_append]
  rfl

theorem bringsLevel_of_initializes (hc : c.initializes = some impl) :
    s.bringsLevel c = some .debug := by
  cases c with
  | initializeQuick => rfl
  | initializeSafe => rfl
  | setLogLevel => cases hc
  | createLogger => cases hc
  | createSafeLogger => cases hc
  | setDefaultLogger => cases hc
  | removeLogger => cases hc

theorem bringsLevel_of_creates {created : Text × Config} (hc : c.creates = some created) :
    s.bringsLevel c = none := by
  cases c with
  | createLogger => rfl
  | createSafeLogger => rfl
  | setLogLevel => cases hc
  | initializeQuick => cases hc
  | initializeSafe => cases hc
  | setDefaultLogger => cases hc
  | removeLogger => cases hc

namespace Kept

variable {calls : List Call}

theorem init : Kept [] .init where
  stored := rfl
  current := by
    intro d hd
    cases hd
  lt := by
    intro d hd
    cases hd

theorem getLogLevel (h : Kept calls s) : s.getLogLevel = lastLevel calls := by
  unfold State.getLogLevel
  cases hd : s.globals.defaultLogger with
  | none => exact h.stored
  | some d => exact h.current d hd

theorem setLogLevel (h : Kept calls s) (level : LogLevel) :
    Kept (calls ++ [.setLogLevel level]) (s.setLogLevel level) := by
  obtain ⟨hglobals, hallocated⟩ := setLogLevel_globals s level
  refine ⟨?_, fun d hd => ?_, fun d hd => ?_⟩
  · rw [hglobals, lastLevel_setLogLevel]
  · rw [State.getDefaultLogger, hglobals] at hd
    rw [lastLevel_setLogLevel, setLogLevel_some hd]
    simp
  · rw [State.getDefaultLogger, hglobals] at hd
    rw [hallocated]
    exact h.lt d hd

/-- A call that changes neither the default logger nor a level. -/
theorem of_eq (h : Kept calls s) (hlast : lastLevel (calls ++ [c]) = lastLevel calls)
    (hlevel : s'.globals.logLevel = s.globals.logLevel)
    (hdefault : ∀ d, s'.getDefaultLogger = some d → s.getDefaultLogger = some d)
    (hloggers : ∀ l < s.allocated, s'.loggers l = s.loggers l)
    (hallocated : s.allocated ≤ s'.allocated) : Kept (calls ++ [c]) s' where
  stored := by rw [hlast, hlevel, h.stored]
  current := by
    intro d hd
    have hold := hdefault d hd
    rw [hlast, hloggers d (h.lt d hold)]
    exact h.current d hold
  lt := fun d hd => (h.lt d (hdefault d hd)).trans_le hallocated

theorem call (h : Kept calls s) (hguard : BringsLast calls s c) (hs : s.call c = some s') :
    Kept (calls ++ [c]) s' := by
  rcases call_cases hs with ⟨level, rfl, rfl⟩ | ⟨impl, hc, rfl⟩ | ⟨name, impl, hc, rfl⟩ |
    ⟨rfl, rfl⟩ | ⟨l, rfl, hl, rfl⟩ | ⟨name, rfl, rfl⟩
  · exact h.setLogLevel level
  · have hlast := lastLevel_concat (c := c) calls (by rintro level rfl; cases hc)
    have hbrings : LogLevel.debug = lastLevel calls := hguard _ (bringsLevel_of_initializes hc)
    refine ⟨hlast ▸ h.stored, fun d hd => ?_, fun d hd => ?_⟩
    · cases hd
      rw [hlast, ← hbrings]
      exact congrArg Logger.level loggers_makeLogger_self
    · cases hd
      exact Nat.lt_succ_self _
  · refine h.of_eq (lastLevel_concat calls (by rintro level rfl; cases hc)) rfl (fun d hd => hd)
      (fun l hl => loggers_makeLogger hl) (Nat.le_succ _)
  · exact h.of_eq (lastLevel_concat calls (by simp)) rfl (fun d hd => hd) (fun l _ => rfl) le_rfl
  · have hlast := lastLevel_concat (c := .setDefaultLogger (some l)) calls (by simp)
    refine ⟨hlast ▸ h.stored, fun d hd => ?_, fun d hd => ?_⟩
    · cases hd
      rw [hlast]
      exact hguard _ rfl
    · cases hd
      exact hl
  · refine h.of_eq (lastLevel_concat calls (by simp)) removeLogger_logLevel (fun d hd => ?_)
      (fun l _ => rfl) le_rfl
    rw [getDefaultLogger_removeLogger] at hd
    exact (Option.filter_eq_some_iff.1 hd).1

/-- A logger that becomes the default with another level makes `getLogLevel` return that level. -/
theorem not_call (hguard : ¬ BringsLast calls s c) (hs : s.call c = some s') :
    s'.getLogLevel ≠ lastLevel (calls ++ [c]) := by
  simp only [BringsLast, Option.mem_def, not_forall] at hguard
  obtain ⟨level, hbrings, hne⟩ := hguard
  rcases call_cases hs with ⟨level, rfl, rfl⟩ | ⟨impl, hc, rfl⟩ | ⟨name, impl, hc, rfl⟩ |
    ⟨rfl, rfl⟩ | ⟨l, rfl, hl, rfl⟩ | ⟨name, rfl, rfl⟩
  · cases hbrings
  · rw [bringsLevel_of_initializes hc, Option.some.injEq] at hbrings
    subst hbrings
    rw [lastLevel_concat calls (by rintro level rfl; cases hc)]
    have hnew : (s.makeDefault impl).getLogLevel = .debug :=
      congrArg Logger.level loggers_makeLogger_self
    rwa [hnew]
  · rw [bringsLevel_of_creates hc] at hbrings
    cases hbrings
  · cases hbrings
  · rw [lastLevel_concat calls (by simp)]
    cases hbrings
    exact hne
  · cases hbrings

end Kept

/-- After every sequence of calls `getLogLevel` returns the level of the last `setLogLevel`, or
`DEBUG`, if and only if each logger that became the default had that level already: a call of
`initializeQuick` or `initializeSafe` comes while the level asked for is `DEBUG`. -/
theorem level_iff (calls : List Call) :
    machine.Throughout (fun calls s => s.getLogLevel = lastLevel calls) calls ↔
      machine.Obeys BringsLast calls := by
  refine Machine.throughout_iff (Q := Kept) calls .init ?_ ?_ ?_
  · exact fun calls s h => h.getLogLevel
  · exact fun calls s c s' _ h hguard hs => h.call hguard hs
  · exact fun calls s c s' _ h hguard hs => Kept.not_call hguard hs

/-- The level `WARN` is asked for, and `initializeSafe` brings back `DEBUG`. -/
theorem exists_level_lost : ∃ s, machine.exec .init
    [.setLogLevel .warn, .initializeSafe [] [] 0 false] = some s ∧
    lastLevel [.setLogLevel .warn, .initializeSafe [] [] 0 false] = .warn ∧
      s.getLogLevel = .debug := by
  obtain ⟨s, hs, hfin⟩ := Option.map_eq_some_iff.1 (show
    (machine.exec .init [.setLogLevel .warn, .initializeSafe [] [] 0 false]).map
      State.getLogLevel = some .debug from rfl)
  exact ⟨s, hs, rfl, hfin⟩

end Registry

end ZephyrLog
