import ZephyrLog.Registry.Interleaving

/-!
# Interleavings that a sequential order explains

The registry of every run is the one that the calls leave in the order of their critical sections,
since each of them writes one entry (`Committed`).  The default logger needs more.  Without a call
of `setDefaultLogger` it is changed under the mutex alone, and the same order explains it
(`Locked`).  With one, and with calls that are `Compatible`, no call of `removeLogger` clears it, so
that it ends as the logger of the last store (`Stored`), and the calls on this logger's name can be
put last.
-/

namespace ZephyrLog

namespace Registry

namespace Calls

variable {ι : Type} [DecidableEq ι] {S : Calls ι} {g : Globals Ref} {G : Globals (Object ι)}
variable {s s' : Shared ι} {i : ι} {l : Ref} {name : Text} {order : List ι} {p : Point ι}

omit [DecidableEq ι] in
theorem nodup_concat (h : order.Nodup) (hi : i ∉ order) : (order ++ [i]).Nodup := by
  rw [← List.concat_eq_append]
  exact h.concat hi

/-- The call `i` joins the ones that have the property `P`. -/
theorem mem_concat_update {P : Point ι → Prop} {point : ι → Point ι}
    (h : ∀ j, j ∈ order ↔ P (point j)) (hp : P p) (j : ι) :
    j ∈ order ++ [i] ↔ P (Function.update point i p j) := by
  rw [List.mem_append, List.mem_singleton, h]
  by_cases hj : j = i
  · subst hj
    simp [hp]
  · rw [Function.update_of_ne hj]
    simp [hj]

theorem mem_update {P : Point ι → Prop} {point : ι → Point ι}
    (h : ∀ j, j ∈ order ↔ P (point j)) (hp : P p ↔ P (point i)) (j : ι) :
    j ∈ order ↔ P (Function.update point i p j) := by
  rw [h]
  by_cases hj : j = i
  · subst hj
    rw [Function.update_self, hp]
  · rw [Function.update_of_ne hj]

/-- The registry is what the calls of `order` leave, those that have written their entries. -/
structure Committed (S : Calls ι) (g : Globals Ref) (order : List ι) (s : Shared ι) : Prop where
  nodup : order.Nodup
  mem : ∀ j, j ∈ order ↔ (s.point j).Committed
  registry : s.globals.registry = order.foldl (Keyed.put S.write) (g.map .old).registry

namespace Committed

theorem init (S : Calls ι) (g : Globals Ref) : S.Committed g [] (S.machine g).init where
  nodup := List.nodup_nil
  mem := fun j => by simp [machine, Point.Committed]
  registry := rfl

/-- A step that writes no entry. -/
theorem keep (h : S.Committed g order s) (hp : p.Committed ↔ (s.point i).Committed)
    (hpoint : s'.point = Function.update s.point i p)
    (hregistry : s'.globals.registry = s.globals.registry) : S.Committed g order s' where
  nodup := h.nodup
  mem := hpoint ▸ mem_update h.mem hp
  registry := hregistry.trans h.registry

/-- A step that writes the call's entry. -/
theorem extend (h : S.Committed g order s) (hold : ¬ (s.point i).Committed) (hp : p.Committed)
    (hpoint : s'.point = Function.update s.point i p)
    (hregistry : s'.globals.registry = Keyed.put S.write s.globals.registry i) :
    S.Committed g (order ++ [i]) s' where
  nodup := nodup_concat h.nodup fun hi => hold ((h.mem i).1 hi)
  mem := hpoint ▸ mem_concat_update h.mem hp
  registry := by
    rw [hregistry, h.registry, List.foldl_append]
    rfl

theorem stepped (h : S.Committed g order s) (hs : S.Stepped s i s') :
    ∃ order', S.Committed g order' s' := by
  cases hs with
  | ignored hc hp =>
    refine ⟨_, h.extend (p := .finished) (by simp [hp, Point.Committed]) trivial rfl ?_⟩
    simp [Shared.goto, Keyed.put, write, hc]
  | registered l hc hp hm =>
    refine ⟨_, h.extend (p := .registered) (by simp [hp, Point.Committed]) trivial rfl ?_⟩
    simp [Globals.register, Keyed.put, write, hc]
  | stored l hc hp => exact ⟨_, h.keep (by simp [hp, Point.Committed]) rfl rfl⟩
  | absent name hc hp hm hr =>
    refine ⟨_, h.extend (p := .finished) (by simp [hp, Point.Committed]) trivial rfl ?_⟩
    simp [Shared.goto, Keyed.put, write, hc, ← hr]
  | found name o hc hp hm hr => exact ⟨_, h.keep (by simp [hp, Point.Committed]) rfl rfl⟩
  | loaded name hc hp => exact ⟨_, h.keep (by simp [hp, Point.Committed]) rfl rfl⟩
  | cleared name d hc hp =>
    refine ⟨_, h.keep (by simp [hp, Point.Committed]) rfl ?_⟩
    exact Globals.clearDefault_registry ..
  | erased name hc hp =>
    refine ⟨_, h.extend (p := .finished) (by simp [hp, Point.Committed]) trivial rfl ?_⟩
    simp [Globals.erase, Keyed.put, write, hc]
  | created name impl hc hp hm =>
    refine ⟨_, h.extend (p := .finished) (by simp [hp, Point.Committed]) trivial rfl ?_⟩
    simp [Globals.register, Keyed.put, write, hc]

omit [DecidableEq ι] in
/-- A logger in the registry was there at first, was made the default or was created. -/
theorem entry (h : S.Committed g order s) {o : Object ι} (ho : s.globals.registry name = some o) :
    (g.registry name).isSome ∨ (∃ i l, S.call i = .setDefaultLogger (some l) ∧ S.name l = name) ∨
      ∃ i impl, S.call i = .create name impl := by
  rw [h.registry] at ho
  obtain hfirst | ⟨i, -, hw⟩ := Keyed.foldl_put_eq ho
  · refine .inl ?_
    change (g.registry name).map Object.old = some o at hfirst
    cases hr : g.registry name with
    | none => simp [hr] at hfirst
    | some l => rfl
  · unfold write at hw
    cases hc : S.call i with
    | setDefaultLogger logger =>
      cases logger with
      | none => simp [hc] at hw
      | some l =>
        simp only [hc, Option.some.injEq, Prod.mk.injEq] at hw
        exact .inr (.inl ⟨i, l, hc, hw.1⟩)
    | removeLogger n => simp [hc] at hw
    | create n impl =>
      simp only [hc, Option.some.injEq, Prod.mk.injEq] at hw
      obtain ⟨rfl, -⟩ := hw
      exact .inr (.inr ⟨i, impl, hc⟩)

end Committed

/-! ## The default logger without a call that stores it -/

/-- Where the call that holds the mutex stands when the calls before it have made `G`. -/
def AtPoint (S : Calls ι) (G : Globals (Object ι)) (name : Text) (globals : Globals (Object ι)) :
    Point ι → Prop
  | .found => globals = G
  | .loaded d => globals = G ∧ d = G.defaultLogger
  | .cleared => globals = G.clearDefault S.nameOf G.defaultLogger name
  | _ => False

/-- The calls that have returned explain the globals up to the steps of the one that holds the
mutex. -/
structure Locked (S : Calls ι) (g : Globals Ref) (order : List ι) (s : Shared ι) : Prop where
  nodup : order.Nodup
  mem : ∀ j, j ∈ order ↔ s.point j = .finished
  rest : ∀ j, s.mutex ≠ some j → s.point j = .start ∨ s.point j = .finished
  free : s.mutex = none → s.globals = S.sequential g order
  held : ∀ i, s.mutex = some i → ∃ name o, S.call i = .removeLogger name ∧
    (S.sequential g order).registry name = some o ∧
    S.AtPoint (S.sequential g order) name s.globals (s.point i)

namespace Locked

theorem init (S : Calls ι) (g : Globals Ref) : S.Locked g [] (S.machine g).init where
  nodup := List.nodup_nil
  mem := fun j => by simp [machine]
  rest := fun _ _ => .inl rfl
  free := fun _ => rfl
  held := fun _ h => by cases h

/-- The other calls stay where they are. -/
theorem rest_update (h : S.Locked g order s) (hothers : ∀ j, j ≠ i → s.mutex ≠ some j) {j : ι}
    (hj : j ≠ i) : Function.update s.point i p j = .start ∨
      Function.update s.point i p j = .finished := by
  rw [Function.update_of_ne hj]
  exact h.rest j (hothers j hj)

/-- The call `i` returns, and nobody holds the mutex afterwards. -/
theorem returns (h : S.Locked g order s) (hold : s.point i ≠ .finished)
    (hothers : ∀ j, j ≠ i → s.mutex ≠ some j)
    (hpoint : s'.point = Function.update s.point i .finished) (hmutex : s'.mutex = none)
    (hglobals : s'.globals = S.perform (S.sequential g order) i) :
    S.Locked g (order ++ [i]) s' where
  nodup := nodup_concat h.nodup fun hi => hold ((h.mem i).1 hi)
  mem := hpoint ▸ mem_concat_update (P := fun p => p = .finished) h.mem rfl
  rest := by
    intro j _
    rw [hpoint]
    by_cases hj : j = i
    · subst hj
      exact .inr (Function.update_self ..)
    · exact h.rest_update hothers hj
  free := fun _ => hglobals.trans (sequential_concat g order i).symm
  held := by
    intro j hj
    rw [hmutex] at hj
    cases hj

/-- A call that changes nothing may return while another one holds the mutex. -/
theorem ignored (h : S.Locked g order s) (hc : S.call i = .setDefaultLogger none)
    (hp : s.point i = .start) : S.Locked g (order ++ [i]) (s.goto i .finished) where
  nodup := nodup_concat h.nodup fun hi => by
    have hfinished := (h.mem i).1 hi
    rw [hp] at hfinished
    cases hfinished
  mem := mem_concat_update (P := fun p => p = .finished) h.mem rfl
  rest := by
    intro j hmutex
    by_cases hj : j = i
    · subst hj
      exact .inr (Function.update_self ..)
    · change Function.update s.point i .finished j = .start ∨
        Function.update s.point i .finished j = .finished
      rw [Function.update_of_ne hj]
      exact h.rest j hmutex
  free := by
    intro hmutex
    rw [sequential_concat, perform_null hc]
    exact h.free hmutex
  held := by
    intro j hmutex
    obtain ⟨name, o, hc', hr, hat⟩ := h.held j hmutex
    have hj : j ≠ i := by
      rintro rfl
      rw [hp] at hat
      exact hat
    rw [sequential_concat, perform_null hc]
    refine ⟨name, o, hc', hr, ?_⟩
    show S.AtPoint _ _ _ (Function.update s.point i .finished j)
    rwa [Function.update_of_ne hj]

/-- The call `i` holds the mutex and goes on. -/
theorem goes (h : S.Locked g order s) (hold : s.point i ≠ .finished) (hp : p ≠ .finished)
    (hothers : ∀ j, j ≠ i → s.mutex ≠ some j) (hpoint : s'.point = Function.update s.point i p)
    (hmutex : s'.mutex = some i)
    (hheld : ∃ name o, S.call i = .removeLogger name ∧
      (S.sequential g order).registry name = some o ∧
      S.AtPoint (S.sequential g order) name s'.globals p) : S.Locked g order s' where
  nodup := h.nodup
  mem := hpoint ▸ mem_update (P := fun p => p = .finished) h.mem (by simp [hold, hp])
  rest := by
    intro j hj
    rw [hmutex] at hj
    have hne : j ≠ i := fun heq => hj (heq ▸ rfl)
    rw [hpoint]
    exact h.rest_update hothers hne
  free := by
    intro hnone
    rw [hmutex] at hnone
    cases hnone
  held := by
    intro j hj
    rw [hmutex, Option.some.injEq] at hj
    subst hj
    rw [hpoint, Function.update_self]
    exact hheld

/-- A call inside `removeLogger` holds the mutex, and nobody else does. -/
theorem inside (h : S.Locked g order s) (hc : S.call i = .removeLogger name)
    (hstart : s.point i ≠ .start) (hfinished : s.point i ≠ .finished) :
    s.mutex = some i ∧ (∀ j, j ≠ i → s.mutex ≠ some j) ∧
      (∃ o, (S.sequential g order).registry name = some o) ∧
      S.AtPoint (S.sequential g order) name s.globals (s.point i) := by
  have hm : s.mutex = some i := by
    by_contra hne
    rcases h.rest i hne with hp | hp
    · exact hstart hp
    · exact hfinished hp
  obtain ⟨n, o, hc', hr, hat⟩ := h.held i hm
  rw [hc, Request.removeLogger.injEq] at hc'
  subst hc'
  refine ⟨hm, fun j hj hmj => hj ?_, ⟨o, hr⟩, hat⟩
  rw [hm, Option.some.injEq] at hmj
  exact hmj.symm

theorem stepped (h : S.Locked g order s) (hnone : ∀ i l, S.call i ≠ .setDefaultLogger (some l))
    (hs : S.Stepped s i s') : ∃ order', S.Locked g order' s' := by
  cases hs with
  | ignored hc hp => exact ⟨_, h.ignored hc hp⟩
  | registered l hc hp hm => exact absurd hc (hnone i l)
  | stored l hc hp => exact absurd hc (hnone i l)
  | absent name hc hp hm hr =>
    refine ⟨_, h.returns (by simp [hp]) (by simp [hm]) rfl hm ?_⟩
    show s.globals = _
    rw [perform_remove hc, ← h.free hm, Globals.removeLogger, hr]
  | found name o hc hp hm hr =>
    refine ⟨_, h.goes (p := .found) (by simp [hp]) (by simp) (by simp [hm]) rfl rfl ?_⟩
    exact ⟨name, o, hc, h.free hm ▸ hr, h.free hm⟩
  | loaded name hc hp =>
    obtain ⟨hm, hothers, ⟨o, hr⟩, hat⟩ := h.inside hc (by simp [hp]) (by simp [hp])
    rw [hp] at hat
    refine ⟨_, h.goes (p := .loaded _) (by simp [hp]) (by simp) hothers rfl hm
      ⟨name, o, hc, hr, ?_⟩⟩
    exact ⟨hat, congrArg Globals.defaultLogger hat⟩
  | cleared name d hc hp =>
    obtain ⟨hm, hothers, ⟨o, hr⟩, hat⟩ := h.inside hc (by simp [hp]) (by simp [hp])
    rw [hp] at hat
    obtain ⟨hglobals, rfl⟩ := hat
    refine ⟨_, h.goes (p := .cleared) (by simp [hp]) (by simp) hothers rfl hm ⟨name, o, hc, hr, ?_⟩⟩
    show s.globals.clearDefault _ _ _ = _
    rw [hglobals]
  | erased name hc hp =>
    obtain ⟨hm, hothers, ⟨o, hr⟩, hat⟩ := h.inside hc (by simp [hp]) (by simp [hp])
    rw [hp] at hat
    refine ⟨_, h.returns (by simp [hp]) hothers rfl rfl ?_⟩
    rw [perform_remove hc, Globals.removeLogger, hr]
    exact congrArg (fun g => g.erase name) hat
  | created name impl hc hp hm =>
    refine ⟨_, h.returns (by simp [hp]) (by simp [hm]) rfl hm ?_⟩
    rw [perform_create hc, ← h.free hm]

end Locked

/-! ## The default logger with calls that store it -/

/-- No interleaving of the calls can be told from a sequential order. -/
structure Compatible (S : Calls ι) (g : Globals Ref) : Prop where
  /-- No name is removed whose logger is made the default. -/
  kept : ∀ i j l name, S.call i = .setDefaultLogger (some l) → S.call j = .removeLogger name →
    S.name l ≠ name
  /-- Loggers that are made the default have different names. -/
  same : ∀ i j l l', S.call i = .setDefaultLogger (some l) →
    S.call j = .setDefaultLogger (some l') → S.name l = S.name l' → l = l'
  /-- If some logger is made the default, a call that removes the name of the old default finds
  no entry. -/
  untouched : ∀ i j l d, S.call i = .setDefaultLogger (some l) → g.defaultLogger = some d →
    S.call j = .removeLogger (S.name d) →
      g.registry (S.name d) = none ∧ ∀ k impl, S.call k ≠ .create (S.name d) impl

/-- The default logger is the old one or the one stored last, and no call of `removeLogger` has seen
a default of its name. -/
structure Stored (S : Calls ι) (g : Globals Ref) (s : Shared ι) : Prop where
  default : s.globals.defaultLogger = g.defaultLogger.map .old ∧
      (∀ i l, S.call i = .setDefaultLogger (some l) → s.point i ≠ .finished) ∨
    ∃ i l, S.call i = .setDefaultLogger (some l) ∧ s.globals.defaultLogger = some (.old l)
  entry : ∀ i name, S.call i = .removeLogger name → s.point i = .found →
    (g.registry name).isSome ∨ ∃ k impl, S.call k = .create name impl
  other : ∀ i name o, S.call i = .removeLogger name → s.point i = .loaded (some o) →
    S.nameOf o ≠ name

namespace Stored

theorem init (S : Calls ι) (g : Globals Ref) : S.Stored g (S.machine g).init where
  default := .inl ⟨rfl, fun i l _ => by simp [machine]⟩
  entry := fun i name _ hp => by cases hp
  other := fun i name o _ hp => by cases hp

/-- A step that leaves the default as it is. -/
theorem keep (h : S.Stored g s) (hpoint : s'.point = Function.update s.point i p)
    (hdefault : s'.globals.defaultLogger = s.globals.defaultLogger)
    (hfinished : ∀ l, S.call i = .setDefaultLogger (some l) → p ≠ .finished)
    (hentry : ∀ name, S.call i = .removeLogger name → p = .found →
      (g.registry name).isSome ∨ ∃ k impl, S.call k = .create name impl)
    (hother : ∀ name o, S.call i = .removeLogger name → p = .loaded (some o) →
      S.nameOf o ≠ name) : S.Stored g s' where
  default := by
    rw [hdefault]
    refine h.default.imp_left fun hfirst => ⟨hfirst.1, fun j l hc => ?_⟩
    rw [hpoint]
    by_cases hj : j = i
    · subst hj
      rw [Function.update_self]
      exact hfinished l hc
    · rw [Function.update_of_ne hj]
      exact hfirst.2 j l hc
  entry := by
    intro j name hc hp
    rw [hpoint] at hp
    by_cases hj : j = i
    · subst hj
      rw [Function.update_self] at hp
      exact hentry name hc hp
    · rw [Function.update_of_ne hj] at hp
      exact h.entry j name hc hp
  other := by
    intro j name o hc hp
    rw [hpoint] at hp
    by_cases hj : j = i
    · subst hj
      rw [Function.update_self] at hp
      exact hother name o hc hp
    · rw [Function.update_of_ne hj] at hp
      exact h.other j name o hc hp

theorem store (h : S.Stored g s) (hc : S.call i = .setDefaultLogger (some l)) :
    S.Stored g { s.goto i .finished with
      globals := s.globals.storeDefault (some (.old l)) } where
  default := .inr ⟨i, l, hc, rfl⟩
  entry := by
    intro j name hj hp
    have hne : j ≠ i := by
      rintro rfl
      rw [hc] at hj
      cases hj
    exact h.entry j name hj ((Function.update_of_ne hne _ _).symm.trans hp)
  other := by
    intro j name o hj hp
    have hne : j ≠ i := by
      rintro rfl
      rw [hc] at hj
      cases hj
    exact h.other j name o hj ((Function.update_of_ne hne _ _).symm.trans hp)

omit [DecidableEq ι] in
/-- The default that `removeLogger` loads has another name. -/
theorem load (h : S.Stored g s) (hcompat : S.Compatible g) {i₀ : ι} {l₀ : Ref}
    (hstore : S.call i₀ = .setDefaultLogger (some l₀)) (hc : S.call i = .removeLogger name)
    (hp : s.point i = .found) {o : Object ι} (ho : s.globals.defaultLogger = some o) :
    S.nameOf o ≠ name := by
  rintro rfl
  rcases h.default with ⟨hfirst, -⟩ | ⟨j, l, hj, hl⟩
  · rw [hfirst, Option.map_eq_some_iff] at ho
    obtain ⟨d, hd, rfl⟩ := ho
    obtain ⟨hnone, hcreate⟩ := hcompat.untouched i₀ i l₀ d hstore hd hc
    rcases h.entry i _ hc hp with hsome | ⟨k, impl, hk⟩
    · simp [nameOf, hnone] at hsome
    · exact hcreate k impl hk
  · rw [hl, Option.some.injEq] at ho
    subst ho
    exact hcompat.kept j i l _ hj hc rfl

theorem stepped (h : S.Stored g s) (hcommitted : S.Committed g order s) (hcompat : S.Compatible g)
    {i₀ : ι} {l₀ : Ref} (hstore : S.call i₀ = .setDefaultLogger (some l₀))
    (hs : S.Stepped s i s') : S.Stored g s' := by
  cases hs with
  | ignored hc hp => exact h.keep (p := .finished) rfl rfl (by simp [hc]) (by simp) (by simp)
  | registered l hc hp hm => exact h.keep (p := .registered) rfl rfl (by simp) (by simp) (by simp)
  | stored l hc hp => exact h.store hc
  | absent name hc hp hm hr =>
    exact h.keep (p := .finished) rfl rfl (by simp [hc]) (by simp) (by simp)
  | found name o hc hp hm hr =>
    refine h.keep (p := .found) rfl rfl (by simp) (fun n hn _ => ?_) (by simp)
    rw [hc, Request.removeLogger.injEq] at hn
    subst hn
    rcases hcommitted.entry hr with hfirst | ⟨j, l, hj, hl⟩ | hcreate
    · exact .inl hfirst
    · exact absurd hl (hcompat.kept j i l name hj hc)
    · exact .inr hcreate
  | loaded name hc hp =>
    refine h.keep (p := .loaded s.globals.defaultLogger) rfl rfl (by simp) (by simp)
      (fun n o hn ho => ?_)
    rw [hc, Request.removeLogger.injEq] at hn
    subst hn
    exact h.load hcompat hstore hc hp (Point.loaded.inj ho)
  | cleared name d hc hp =>
    refine h.keep (p := .cleared) rfl ?_ (by simp) (by simp) (by simp)
    cases d with
    | none => rfl
    | some o =>
      have hne := h.other i name o hc hp
      simp [Globals.clearDefault, hne]
  | erased name hc hp => exact h.keep (p := .finished) rfl rfl (by simp [hc]) (by simp) (by simp)
  | created name impl hc hp hm =>
    exact h.keep (p := .finished) rfl rfl (by simp [hc]) (by simp) (by simp)

end Stored

omit [DecidableEq ι] in
/-- Calls on the name of `l`, one of which makes `l` the default, leave `l` the default. -/
theorem foldl_default (hcompat : S.Compatible g) (hc : S.call i = .setDefaultLogger (some l))
    (hi : i ∈ order) (hkey : ∀ j ∈ order, Keyed.onKey S.write (S.name l) j)
    (G : Globals (Object ι)) : (order.foldl S.perform G).defaultLogger = some (.old l) := by
  obtain ⟨before, after, rfl⟩ := List.append_of_mem hi
  rw [List.foldl_append, List.foldl_cons]
  have hfirst : (S.perform (before.foldl S.perform G) i).defaultLogger = some (.old l) := by
    rw [perform_setDefault hc]
    rfl
  refine List.foldlRecOn (motive := fun G => G.defaultLogger = some (.old l)) after S.perform
    hfirst fun G hG j hj => ?_
  have hj := hkey j (List.mem_append_right _ (List.mem_cons_of_mem _ hj))
  unfold Keyed.onKey write at hj
  cases hcj : S.call j with
  | setDefaultLogger logger =>
    cases logger with
    | none => rwa [perform_null hcj]
    | some l' =>
      simp only [hcj, Option.map_some, Option.some.injEq, decide_eq_true_eq] at hj
      rw [hcompat.same i j l l' hc hcj hj.symm, perform_setDefault hcj]
      rfl
  | removeLogger name =>
    simp only [hcj, Option.map_some, Option.some.injEq, decide_eq_true_eq] at hj
    exact absurd hj.symm (hcompat.kept i j l name hc hcj)
  | create name impl =>
    rw [perform_create hcj]
    exact hG

end Calls

end Registry

end ZephyrLog
