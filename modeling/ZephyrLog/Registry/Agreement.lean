import ZephyrLog.Registry.Model

/-!
# The registry and the default logger

`setDefaultLogger` registers the logger it makes the default under the logger's own name, and
`removeLogger` clears the default when the names are equal.  The two agree as long as nobody else
takes the name: `createLogger` and `createSafeLogger` replace the registry's entry and leave the
default as it is, so a call of one of them with the name of the default logger separates the two
(`agrees_iff`).
-/

namespace ZephyrLog

namespace Registry

variable {s s' : State} {c : Call} {name : Text} {impl : Config} {l d : Ref}

/-- The default logger, if there is one, is what `getLogger` returns for its name. -/
def Agrees (s : State) : Prop :=
  ∀ d, s.getDefaultLogger = some d → s.getLogger (s.name d) = some d

/-- `removeLogger` clears the default exactly when the logger it takes out of the registry is the
default one. -/
def ClearsOwn (s : State) : Prop :=
  ∀ d name, s.getDefaultLogger = some d →
    ((s.removeLogger name).getDefaultLogger = none ↔ s.getLogger name = some d)

/-- The call does not create a logger with the name of the default one. -/
def NoShadow (s : State) (c : Call) : Prop :=
  ∀ d name impl, s.getDefaultLogger = some d → c.creates = some (name, impl) → name ≠ s.name d

/-- The registry and the default point to loggers, an entry of the registry to one of its name. -/
structure Named (s : State) : Prop where
  entry : ∀ n l, s.getLogger n = some l → s.name l = n ∧ l < s.allocated
  default : ∀ d, s.getDefaultLogger = some d → d < s.allocated

/-! ## Every call keeps the names in order -/

namespace Named

theorem init : Named .init where
  entry := by
    intro n l h
    cases h
  default := by
    intro d h
    cases h

theorem setDefaultLogger (h : Named s) (hl : l < s.allocated) :
    Named (s.setDefaultLogger (some l)) where
  entry := by
    intro n l' hl'
    change (s.globals.register (s.name l) l).registry n = some l' at hl'
    rw [Globals.registry_register] at hl'
    split at hl'
    · next heq =>
      cases hl'
      exact ⟨heq.symm, hl⟩
    · exact h.entry n l' hl'
  default := by
    intro d hd
    cases hd
    exact hl

theorem makeLogger (h : Named s) : Named (s.makeLogger name impl) where
  entry := by
    intro n l hl
    obtain ⟨hname, hlt⟩ := h.entry n l hl
    refine ⟨?_, Nat.lt_succ_of_lt hlt⟩
    rwa [State.name, loggers_makeLogger hlt]
  default := fun d hd => Nat.lt_succ_of_lt (h.default d hd)

theorem create (h : Named s) : Named (s.create name impl) where
  entry := by
    intro n l hl
    change (s.globals.register name s.allocated).registry n = some l at hl
    rw [Globals.registry_register] at hl
    split at hl
    · next heq =>
      cases hl
      have hself : (s.create name impl).name s.allocated = name :=
        congrArg Logger.name loggers_makeLogger_self
      exact ⟨hself.trans heq.symm, Nat.lt_succ_self _⟩
    · exact h.makeLogger.entry n l hl
  default := fun d hd => Nat.lt_succ_of_lt (h.default d hd)

theorem setLogLevel (h : Named s) (level : LogLevel) : Named (s.setLogLevel level) := by
  obtain ⟨hglobals, hallocated⟩ := setLogLevel_globals s level
  refine ⟨fun n l hl => ?_, fun d hd => ?_⟩
  · rw [State.getLogger, hglobals] at hl
    rw [name_setLogLevel, hallocated]
    exact h.entry n l hl
  · rw [State.getDefaultLogger, hglobals] at hd
    rw [hallocated]
    exact h.default d hd

theorem removeLogger (h : Named s) (name : Text) : Named (s.removeLogger name) := by
  refine ⟨fun n l hl => ?_, fun d hd => ?_⟩
  · rw [getLogger_removeLogger] at hl
    split at hl
    · cases hl
    · exact h.entry n l hl
  · rw [getDefaultLogger_removeLogger] at hd
    exact h.default d (Option.filter_eq_some_iff.1 hd).1

theorem call (h : Named s) (hs : s.call c = some s') : Named s' := by
  rcases call_cases hs with ⟨level, -, rfl⟩ | ⟨impl, -, rfl⟩ | ⟨name, impl, -, rfl⟩ | ⟨-, rfl⟩ |
    ⟨l, -, hl, rfl⟩ | ⟨name, -, rfl⟩
  · exact h.setLogLevel level
  · exact h.makeLogger.setDefaultLogger (Nat.lt_succ_self _)
  · exact h.create
  · exact h
  · exact h.setDefaultLogger hl
  · exact h.removeLogger name

end Named

/-! ## Agreement -/

namespace Agrees

theorem clearsOwn (h : Agrees s) (hn : Named s) : ClearsOwn s := by
  intro d name hd
  rw [getDefaultLogger_removeLogger, hd]
  by_cases hname : s.name d = name
  · subst hname
    simp [h d hd]
  · have hother : s.getLogger name ≠ some d := fun hentry => hname (hn.entry name d hentry).1
    simp [hname, hother]

theorem setDefaultLogger (s : State) (l : Ref) : Agrees (s.setDefaultLogger (some l)) := by
  intro d hd
  cases hd
  show (s.globals.register (s.name l) l).registry (s.name l) = some l
  rw [Globals.registry_register, if_pos rfl]

theorem setLogLevel (h : Agrees s) (level : LogLevel) : Agrees (s.setLogLevel level) := by
  intro d hd
  have hglobals := (setLogLevel_globals s level).1
  rw [State.getDefaultLogger, hglobals] at hd
  rw [name_setLogLevel, State.getLogger, hglobals]
  exact h d hd

theorem create (h : Agrees s) (hn : Named s)
    (hguard : ∀ d, s.getDefaultLogger = some d → name ≠ s.name d) :
    Agrees (s.create name impl) := by
  intro d hd
  have hname : (s.create name impl).name d = s.name d :=
    congrArg Logger.name (loggers_makeLogger (hn.default d hd))
  show (s.globals.register name s.allocated).registry _ = _
  rw [Globals.registry_register, hname, if_neg (hguard d hd).symm]
  exact h d hd

theorem removeLogger (h : Agrees s) (name : Text) : Agrees (s.removeLogger name) := by
  intro d hd
  rw [getDefaultLogger_removeLogger, Option.filter_eq_some_iff] at hd
  obtain ⟨hold, hkept⟩ := hd
  have hentry := h d hold
  have hname : s.name d ≠ name := by
    rintro rfl
    simp [hentry] at hkept
  show (s.removeLogger name).getLogger (s.name d) = some d
  rwa [getLogger_removeLogger, if_neg hname]

theorem call (h : Agrees s) (hn : Named s) (hguard : NoShadow s c) (hs : s.call c = some s') :
    Agrees s' := by
  rcases call_cases hs with ⟨level, -, rfl⟩ | ⟨impl, -, rfl⟩ | ⟨name, impl, hc, rfl⟩ | ⟨-, rfl⟩ |
    ⟨l, -, -, rfl⟩ | ⟨name, -, rfl⟩
  · exact h.setLogLevel level
  · exact setDefaultLogger _ _
  · exact h.create hn fun d hd => hguard d name impl hd hc
  · exact h
  · exact setDefaultLogger _ _
  · exact h.removeLogger name

/-- Creating a logger under the name of the default one separates the two. -/
theorem not_create (hn : Named s) (hd : s.getDefaultLogger = some d) :
    ¬ Agrees (s.create (s.name d) impl) := by
  intro h
  have hlt := hn.default d hd
  have hname : (s.create (s.name d) impl).name d = s.name d :=
    congrArg Logger.name (loggers_makeLogger hlt)
  have hentry : (s.globals.register (s.name d) s.allocated).registry _ = some d := h d hd
  rw [Globals.registry_register, hname, if_pos rfl, Option.some.injEq] at hentry
  exact hlt.ne' hentry

theorem not_call (hn : Named s) (hguard : ¬ NoShadow s c) (hs : s.call c = some s') :
    ¬ Agrees s' := by
  simp only [NoShadow, not_forall, not_not] at hguard
  obtain ⟨d, name, impl, hd, hc, rfl⟩ := hguard
  rcases call_cases hs with ⟨level, rfl, -⟩ | ⟨impl', hc', -⟩ | ⟨name', impl', hc', rfl⟩ |
    ⟨rfl, -⟩ | ⟨l, rfl, -, -⟩ | ⟨name, rfl, -⟩
  · cases hc
  · cases c <;> simp [Call.initializes, Call.creates] at hc hc'
  · rw [hc, Option.some.injEq, Prod.mk.injEq] at hc'
    obtain ⟨rfl, rfl⟩ := hc'
    exact not_create hn hd
  · cases hc
  · cases hc
  · cases hc

end Agrees

/-- Throughout a sequence of calls the default logger is the one registered under its name, and
`removeLogger` clears it exactly when it removes that one, if and only if no call creates a logger
with the name of the default logger of its moment. -/
theorem agrees_iff (calls : List Call) :
    machine.Throughout (fun _ s => Agrees s ∧ ClearsOwn s) calls ↔
      machine.Obeys (fun _ s c => NoShadow s c) calls := by
  refine Machine.throughout_iff (Q := fun _ s => Named s ∧ Agrees s) calls ?_ ?_ ?_ ?_
  · refine ⟨.init, fun d hd => ?_⟩
    cases hd
  · exact fun _ s h => ⟨h.2, h.2.clearsOwn h.1⟩
  · exact fun _ s c s' _ h hguard hs => ⟨h.1.call hs, h.2.call h.1 hguard hs⟩
  · exact fun _ s c s' _ h hguard hs hP => Agrees.not_call h.1 hguard hs hP.1

/-- After `initializeQuick` a logger with the name "default" is created.  The default logger is not
the one of its name in the registry any more, and removing that one clears the default. -/
theorem exists_not_agrees : ∃ s, machine.exec .init
    [.initializeQuick ⟨4096, by decide⟩ [] [] 0 false,
      .createLogger (ascii "default") ⟨4096, by decide⟩ [] [] 0 false] = some s ∧
    s.getDefaultLogger = some 0 ∧ s.name 0 = ascii "default" ∧
      s.getLogger (ascii "default") = some 1 ∧
      (s.removeLogger (ascii "default")).getDefaultLogger = none := by
  obtain ⟨s, hs, hfin⟩ := Option.map_eq_some_iff.1 (show
    (machine.exec .init [.initializeQuick ⟨4096, by decide⟩ [] [] 0 false,
      .createLogger (ascii "default") ⟨4096, by decide⟩ [] [] 0 false]).map
      (fun s => (s.getDefaultLogger, s.name 0, s.getLogger (ascii "default"),
        (s.removeLogger (ascii "default")).getDefaultLogger)) =
      some (some 0, ascii "default", some 1, none) from rfl)
  simp only [Prod.mk.injEq] at hfin
  exact ⟨s, hs, hfin⟩

end Registry

end ZephyrLog
