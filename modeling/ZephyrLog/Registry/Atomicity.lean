import Mathlib.Data.Fintype.Card
import ZephyrLog.Registry.Serial

/-!
# When the registry's functions are atomic

`serial_iff` says for which calls every interleaving ends like a sequential order of them: exactly
for the `Compatible` ones.  One direction collects the invariants of the runs.  For the other, each
way to be incompatible gives an interleaving, built from whole calls (`exec_alone`) and the steps of
the two or three calls that matter, and a property of the sequential orders that its end does not
have.
-/

namespace ZephyrLog

namespace Registry

namespace Calls

variable {ι : Type} [DecidableEq ι] {S : Calls ι} {g : Globals Ref} {G : Globals (Object ι)}
variable {s s' : Shared ι} {i j : ι} {l : Ref} {name : Text} {order : List ι}

/-- Every call is in the order, once. -/
def Complete (order : List ι) : Prop := order.Nodup ∧ ∀ i, i ∈ order

/-- The registry and the default logger are what some sequential order of the calls leaves. -/
def Serial (S : Calls ι) (g : Globals Ref) (s : Shared ι) : Prop :=
  ∃ order : List ι, Complete order ∧
    (S.sequential g order).registry = s.globals.registry ∧
    (S.sequential g order).defaultLogger = s.globals.defaultLogger

/-- All the calls have returned. -/
def Finished (s : Shared ι) : Prop := ∀ i, s.point i = .finished

/-! ## Compatible calls -/

theorem locked_of_reachable (hnone : ∀ i l, S.call i ≠ .setDefaultLogger (some l))
    (h : (S.machine g).Reachable Machine.anyStep s) : ∃ order, S.Locked g order s := by
  refine h.invariant (P := fun s => ∃ order, S.Locked g order s) ⟨[], .init S g⟩ ?_
  rintro s i s' ⟨order, hP⟩ - hs
  exact hP.stepped hnone (Calls.stepped hs)

theorem stored_of_reachable (hcompat : S.Compatible g)
    (hstore : S.call i = .setDefaultLogger (some l))
    (h : (S.machine g).Reachable Machine.anyStep s) :
    (∃ order, S.Committed g order s) ∧ S.Stored g s := by
  refine h.invariant (P := fun s => (∃ order, S.Committed g order s) ∧ S.Stored g s)
    ⟨⟨[], .init S g⟩, .init S g⟩ ?_
  rintro s j s' ⟨⟨order, hcommitted⟩, hstored⟩ - hs
  exact ⟨hcommitted.stepped (Calls.stepped hs),
    hstored.stepped hcommitted hcompat hstore (Calls.stepped hs)⟩

theorem serial_of_compatible (hcompat : S.Compatible g)
    (h : (S.machine g).Reachable Machine.anyStep s) (hfinished : Finished s) : S.Serial g s := by
  by_cases hany : ∃ i l, S.call i = .setDefaultLogger (some l)
  · obtain ⟨i₀, l₀, hstore⟩ := hany
    obtain ⟨⟨order, hcommitted⟩, hstored⟩ := stored_of_reachable hcompat hstore h
    obtain ⟨-, hnone⟩ | ⟨i, l, hc, hdefault⟩ := hstored.default
    · exact absurd (hfinished i₀) (hnone i₀ l₀ hstore)
    -- the calls on the name of the last default go last
    have hmem (j : ι) : j ∈ order := (hcommitted.mem j).2 (by simp [hfinished j, Point.Committed])
    have hkey : Keyed.onKey S.write (S.name l) i := by simp [Keyed.onKey, write, hc]
    refine ⟨(order.filter fun j => !Keyed.onKey S.write (S.name l) j) ++
      order.filter (Keyed.onKey S.write (S.name l)), ⟨?_, fun j => ?_⟩, ?_, ?_⟩
    · refine List.nodup_append.2 ⟨hcommitted.nodup.filter _, hcommitted.nodup.filter _, ?_⟩
      rintro a ha b hb rfl
      simp only [List.mem_filter] at ha hb
      simp [hb.2] at ha
    · simp only [List.mem_append, List.mem_filter, hmem, true_and]
      cases Keyed.onKey S.write (S.name l) j <;> simp
    · rw [sequential, foldl_perform_registry, Keyed.foldl_put_last, hcommitted.registry]
    · rw [sequential, List.foldl_append, hdefault]
      refine foldl_default hcompat hc (List.mem_filter.2 ⟨hmem i, hkey⟩) (fun j hj => ?_) _
      exact (List.mem_filter.1 hj).2
  · simp only [not_exists] at hany
    obtain ⟨order, hlocked⟩ := locked_of_reachable hany h
    have hfree : s.mutex = none := by
      by_contra hne
      obtain ⟨j, hj⟩ := Option.ne_none_iff_exists'.1 hne
      obtain ⟨name, o, -, -, hat⟩ := hlocked.held j hj
      rw [hfinished j] at hat
      exact hat
    refine ⟨order, ⟨hlocked.nodup, fun j => (hlocked.mem j).2 (hfinished j)⟩, ?_, ?_⟩
    · rw [hlocked.free hfree]
    · rw [hlocked.free hfree]

/-! ## Building interleavings -/

/-- A call that starts while the mutex is free may run to its end. -/
theorem alone (hmutex : s.mutex = none) (hp : s.point i = .start) :
    ∃ s', (S.machine g).Reaches Machine.anyStep s s' ∧
      s'.point = Function.update s.point i .finished ∧ s'.mutex = none ∧
      s'.globals = S.perform s.globals i := by
  refine ⟨{ s.goto i .finished with globals := S.perform s.globals i }, ?_, rfl, hmutex, rfl⟩
  cases hc : S.call i with
  | setDefaultLogger logger =>
    cases logger with
    | none =>
      refine .of_exec [i] (fun _ _ _ => trivial) ?_
      simp [Machine.exec, machine, step, hc, hp, perform_null hc, Shared.goto]
    | some l =>
      refine .of_exec [i, i] (fun _ _ _ => trivial) ?_
      simp [Machine.exec, machine, step, hc, hp, hmutex, perform_setDefault hc, Shared.goto]
  | removeLogger name =>
    cases hr : s.globals.registry name with
    | none =>
      refine .of_exec [i] (fun _ _ _ => trivial) ?_
      simp [Machine.exec, machine, step, hc, hp, hmutex, hr, perform_remove hc,
        Globals.removeLogger, Shared.goto]
    | some o =>
      refine .of_exec [i, i, i, i] (fun _ _ _ => trivial) ?_
      simp [Machine.exec, machine, step, hc, hp, hmutex, hr, perform_remove hc,
        Globals.removeLogger, Shared.goto]
  | create name impl =>
    refine .of_exec [i] (fun _ _ _ => trivial) ?_
    simp [Machine.exec, machine, step, hc, hp, hmutex, perform_create hc, Shared.goto]

theorem register_step (hc : S.call i = .setDefaultLogger (some l)) (hp : s.point i = .start)
    (hmutex : s.mutex = none) :
    ∃ s', (S.machine g).Reaches Machine.anyStep s s' ∧
      s'.point = Function.update s.point i .registered ∧ s'.mutex = none ∧
      s'.globals = s.globals.register (S.name l) (.old l) := by
  refine ⟨{ s.goto i .registered with globals := s.globals.register (S.name l) (.old l) },
    .single i trivial ?_, rfl, hmutex, rfl⟩
  simp [machine, step, hc, hp, hmutex]

theorem store_step (hc : S.call i = .setDefaultLogger (some l)) (hp : s.point i = .registered) :
    ∃ s', (S.machine g).Reaches Machine.anyStep s s' ∧
      s'.point = Function.update s.point i .finished ∧
      s'.globals = s.globals.storeDefault (some (.old l)) := by
  refine ⟨{ s.goto i .finished with globals := s.globals.storeDefault (some (.old l)) },
    .single i trivial ?_, rfl, rfl⟩
  simp [machine, step, hc, hp]

/-- The store of `i` is the last step of all. -/
theorem store_last (hc : S.call i = .setDefaultLogger (some l)) (hp : s.point i = .registered)
    (hothers : ∀ k, k ≠ i → s.point k = .finished) :
    ∃ s', (S.machine g).Reaches Machine.anyStep s s' ∧ Finished s' ∧
      s'.globals.defaultLogger = some (.old l) ∧ s'.globals.registry = s.globals.registry := by
  obtain ⟨s', hs', hpoint, hglobals⟩ := store_step (g := g) hc hp
  refine ⟨s', hs', fun k => ?_, ?_, ?_⟩
  · rw [hpoint]
    by_cases hk : k = i
    · rw [hk, Function.update_self]
    · rw [Function.update_of_ne hk, hothers k hk]
  · rw [hglobals]
    rfl
  · rw [hglobals]
    rfl

/-- If one call at the point `p` can be brought to `q`, so can be all the calls of a list. -/
theorem each {p q : Point ι} {I : Shared ι → Prop} (hnodup : order.Nodup)
    (one : ∀ s i, i ∈ order → s.point i = p → I s → ∃ s',
      (S.machine g).Reaches Machine.anyStep s s' ∧
        s'.point = Function.update s.point i q ∧ I s')
    (hI : I s) (hp : ∀ i ∈ order, s.point i = p) :
    ∃ t, (S.machine g).Reaches Machine.anyStep s t ∧ I t ∧ (∀ i ∈ order, t.point i = q) ∧
      ∀ i ∉ order, t.point i = s.point i := by
  induction order generalizing s with
  | nil => exact ⟨s, .refl, hI, by simp, by simp⟩
  | cons i order ih =>
    obtain ⟨hi, hnodup⟩ := List.nodup_cons.1 hnodup
    obtain ⟨s', hs', hpoint, hI'⟩ := one s i List.mem_cons_self (hp i List.mem_cons_self) hI
    have hrest (j : ι) (hj : j ≠ i) : s'.point j = s.point j := by
      rw [hpoint, Function.update_of_ne hj]
    obtain ⟨t, ht, hIt, hq, hother⟩ := ih hnodup
      (fun s j hj => one s j (List.mem_cons_of_mem i hj)) hI' fun j hj => by
        rw [hrest j (by rintro rfl; exact hi hj)]
        exact hp j (List.mem_cons_of_mem i hj)
    refine ⟨t, hs'.trans ht, hIt, ?_, ?_⟩
    · intro j hj
      rcases List.mem_cons.1 hj with rfl | hj
      · rw [hother j hi, hpoint, Function.update_self]
      · exact hq j hj
    · intro j hj
      rw [List.mem_cons, not_or] at hj
      rw [hother j hj.2, hrest j hj.1]

section Fintype

variable [Fintype ι]

/-- So can be all the calls with some property. -/
theorem each_of (A : ι → Prop) {p q : Point ι} {I : Shared ι → Prop}
    (one : ∀ s i, A i → s.point i = p → I s → ∃ s',
      (S.machine g).Reaches Machine.anyStep s s' ∧
        s'.point = Function.update s.point i q ∧ I s')
    (hI : I s) (hp : ∀ i, A i → s.point i = p) :
    ∃ t, (S.machine g).Reaches Machine.anyStep s t ∧ I t ∧ (∀ i, A i → t.point i = q) ∧
      ∀ i, ¬ A i → t.point i = s.point i := by
  classical
  have hmem (i : ι) (hi : i ∈ Finset.univ.toList.filter (A ·)) : A i :=
    of_decide_eq_true (List.mem_filter.1 hi).2
  obtain ⟨t, ht, hIt, hq, hkept⟩ := each ((Finset.univ.nodup_toList (α := ι)).filter (A ·))
    (fun s i hi => one s i (hmem i hi)) hI (fun i hi => hp i (hmem i hi))
  exact ⟨t, ht, hIt, fun i hi => hq i (by simp [hi]), fun i hi => hkept i (by simp [hi])⟩

/-- All calls but those of a list may run first. -/
theorem others_first (S : Calls ι) (g : Globals Ref) (last : List ι) :
    ∃ t, (S.machine g).Reachable Machine.anyStep t ∧ t.mutex = none ∧
      (∀ i ∈ last, t.point i = .start) ∧ ∀ i ∉ last, t.point i = .finished := by
  obtain ⟨t, ht, hmutex, hfinished, hstart⟩ := each_of (S := S) (g := g) (· ∉ last) (p := .start)
    (q := .finished) (I := fun s => s.mutex = none) (s := (S.machine g).init)
    (fun s i _ hp hmutex => by
      obtain ⟨s', hs', hpoint, hmutex', -⟩ := alone (S := S) (g := g) hmutex hp
      exact ⟨s', hs', hpoint, hmutex'⟩) rfl (fun i _ => rfl)
  exact ⟨t, ht, hmutex, fun i hi => hstart i (not_not.2 hi), hfinished⟩

/-- All calls but `i` and `j` run first, then `i` registers its logger. -/
theorem register_first (hc : S.call i = .setDefaultLogger (some l)) (hij : i ≠ j) :
    ∃ t, (S.machine g).Reachable Machine.anyStep t ∧ t.mutex = none ∧ t.point i = .registered ∧
      t.point j = .start ∧ ∀ k, k ≠ i → k ≠ j → t.point k = .finished := by
  obtain ⟨t, ht, hmutex, hstart, hfinished⟩ := others_first S g [i, j]
  obtain ⟨t₁, ht₁, hpoint₁, hmutex₁, -⟩ := register_step (g := g) hc (hstart i (by simp)) hmutex
  refine ⟨t₁, ht.trans ht₁, hmutex₁, ?_, ?_, fun k hki hkj => ?_⟩
  · rw [hpoint₁, Function.update_self]
  · rw [hpoint₁, Function.update_of_ne hij.symm, hstart j (by simp)]
  · rw [hpoint₁, Function.update_of_ne hki]
    exact hfinished k (by simp [hki, hkj])

/-- A logger may be removed after it has been registered and before it is made the default. -/
theorem exists_unregistered (hc : S.call i = .setDefaultLogger (some l))
    (hj : S.call j = .removeLogger (S.name l)) :
    ∃ s, (S.machine g).Reachable Machine.anyStep s ∧ Finished s ∧
      s.globals.defaultLogger = some (.old l) ∧ s.globals.registry (S.name l) = none := by
  have hij : i ≠ j := by
    rintro rfl
    rw [hc] at hj
    cases hj
  obtain ⟨t₁, ht₁, hmutex₁, hi₁, hj₁, hothers₁⟩ := register_first (g := g) hc hij
  obtain ⟨t₂, ht₂, hpoint₂, -, hglobals₂⟩ := alone (S := S) (g := g) hmutex₁ hj₁
  obtain ⟨s, hs, hfinished, hdefault, hregistry⟩ := store_last (g := g) (s := t₂) hc
    (by rw [hpoint₂, Function.update_of_ne hij, hi₁]) (fun k hki => by
      rw [hpoint₂]
      by_cases hkj : k = j
      · rw [hkj, Function.update_self]
      · rw [Function.update_of_ne hkj, hothers₁ k hki hkj])
  refine ⟨s, (ht₁.trans ht₂).trans hs, hfinished, hdefault, ?_⟩
  rw [hregistry, hglobals₂, perform_remove hj, Globals.removeLogger_registry, Function.update_self]

/-- Two loggers of one name may be registered in one order and made the default in the other. -/
theorem exists_crossed {l' : Ref} (hc : S.call i = .setDefaultLogger (some l))
    (hj : S.call j = .setDefaultLogger (some l')) (hname : S.name l = S.name l') (hne : l ≠ l') :
    ∃ s, (S.machine g).Reachable Machine.anyStep s ∧ Finished s ∧
      s.globals.defaultLogger = some (.old l) ∧
      s.globals.registry (S.name l) = some (.old l') := by
  have hij : i ≠ j := by
    rintro rfl
    rw [hc, Request.setDefaultLogger.injEq, Option.some.injEq] at hj
    exact hne hj
  obtain ⟨t₁, ht₁, hmutex₁, hi₁, hj₁, hothers₁⟩ := register_first (g := g) hc hij
  obtain ⟨t₂, ht₂, hpoint₂, -, hglobals₂⟩ := register_step (g := g) hj hj₁ hmutex₁
  have hj₂ : t₂.point j = .registered := by rw [hpoint₂, Function.update_self]
  obtain ⟨t₃, ht₃, hpoint₃, hglobals₃⟩ := store_step (g := g) hj hj₂
  obtain ⟨s, hs, hfinished, hdefault, hregistry⟩ := store_last (g := g) (s := t₃) hc
    (by rw [hpoint₃, Function.update_of_ne hij, hpoint₂, Function.update_of_ne hij, hi₁])
    (fun k hki => by
      rw [hpoint₃]
      by_cases hkj : k = j
      · rw [hkj, Function.update_self]
      · rw [Function.update_of_ne hkj, hpoint₂, Function.update_of_ne hkj, hothers₁ k hki hkj])
  refine ⟨s, ((ht₁.trans ht₂).trans ht₃).trans hs, hfinished, hdefault, ?_⟩
  rw [hregistry, hglobals₃, hglobals₂, hname]
  exact Function.update_self ..

end Fintype

/-- The call makes a logger the default. -/
def Stores (S : Calls ι) (i : ι) : Prop := ∃ l, S.call i = .setDefaultLogger (some l)

/-- The removal of `d`'s name can still find an entry and load `d`, and no store has begun. -/
structure Loadable (S : Calls ι) (d : Ref) (j : ι) (s : Shared ι) : Prop where
  mutex : s.mutex = none
  default : s.globals.defaultLogger = some (.old d)
  entry : (s.globals.registry (S.name d)).isSome
  start : s.point j = .start
  stores : ∀ i, S.Stores i → s.point i = .start
  rest : ∀ i, s.point i = .start ∨ s.point i = .finished

theorem exists_loadable {d : Ref} (hd : g.defaultLogger = some d)
    (hj : S.call j = .removeLogger (S.name d))
    (hentry : (g.registry (S.name d)).isSome ∨ ∃ k impl, S.call k = .create (S.name d) impl) :
    ∃ t, (S.machine g).Reachable Machine.anyStep t ∧ S.Loadable d j t := by
  have hdefault : (g.map (Object.old (ι := ι))).defaultLogger = some (.old d) := by
    simp [Globals.map, hd]
  rcases hentry with hfirst | ⟨k, impl, hk⟩
  · refine ⟨_, .refl, rfl, hdefault, ?_, rfl, fun _ _ => rfl, fun _ => .inl rfl⟩
    simpa [machine, Globals.map] using hfirst
  · have hother (i : ι) (hi : S.call i ≠ S.call k) :
        Function.update (S.machine g).init.point k .finished i = .start := by
      rw [Function.update_of_ne (by rintro rfl; exact hi rfl)]
      rfl
    obtain ⟨t, ht, hpoint, hmutex, hglobals⟩ :=
      alone (S := S) (g := g) (s := (S.machine g).init) (i := k) rfl rfl
    refine ⟨t, ht, hmutex, ?_, ?_, ?_, ?_, fun i => ?_⟩
    · rw [hglobals, perform_create hk]
      exact hdefault
    · rw [hglobals, perform_create hk]
      simp [machine, Globals.register]
    · rw [hpoint]
      exact hother j (by simp [hj, hk])
    · rintro i ⟨l, hl⟩
      rw [hpoint]
      exact hother i (by simp [hl, hk])
    · rw [hpoint]
      by_cases hik : i = k
      · subst hik
        exact .inr (Function.update_self ..)
      · exact .inl (Function.update_of_ne hik _ _)

variable [Fintype ι]

/-- All loggers that are to become the default are registered. -/
theorem Loadable.exists_registered {d : Ref} (h : S.Loadable d j s) :
    ∃ t, (S.machine g).Reaches Machine.anyStep s t ∧ (t.mutex = none ∧
        t.globals.defaultLogger = some (.old d) ∧ (t.globals.registry (S.name d)).isSome) ∧
      (∀ i, S.Stores i → t.point i = .registered) ∧ ∀ i, ¬ S.Stores i → t.point i = s.point i := by
  refine each_of S.Stores ?_ ⟨h.mutex, h.default, h.entry⟩ h.stores
  rintro t i ⟨l, hl⟩ hp ⟨hmutex, hdefault, hentry⟩
  obtain ⟨t', ht', hpoint, hmutex', hglobals⟩ := register_step (g := g) hl hp hmutex
  refine ⟨t', ht', hpoint, hmutex', by rwa [hglobals], ?_⟩
  rw [hglobals, Globals.registry_register]
  split
  · rfl
  · exact hentry

/-- All loggers that have been registered so become the default, one after another. -/
theorem exists_stored (hp : ∀ i, S.Stores i → s.point i = .registered) :
    ∃ t, (S.machine g).Reaches Machine.anyStep s t ∧
      (∀ i, S.Stores i → t.point i = .finished) ∧ ∀ i, ¬ S.Stores i → t.point i = s.point i := by
  obtain ⟨t, ht, -, hstores, hrest⟩ := each_of (S := S) (g := g) S.Stores (q := .finished)
    (I := fun _ => True) (by
      rintro t i ⟨l, hl⟩ hp -
      obtain ⟨t', ht', hpoint, -⟩ := store_step (g := g) hl hp
      exact ⟨t', ht', hpoint, trivial⟩) trivial hp
  exact ⟨t, ht, hstores, hrest⟩

/-- All the stores of the default may come between the moment when `removeLogger` loads the old
default and the one when it clears it. -/
theorem Loadable.exists_cleared {d : Ref} (h : S.Loadable d j s)
    (hj : S.call j = .removeLogger (S.name d)) :
    ∃ t, (S.machine g).Reaches Machine.anyStep s t ∧ t.mutex = none ∧
      t.globals.defaultLogger = none ∧ (∀ i, S.Stores i → t.point i = .finished) ∧
      ∀ i, t.point i = .start ∨ t.point i = .finished := by
  have hjstores : ¬ S.Stores j := by
    rintro ⟨l, hl⟩
    rw [hj] at hl
    cases hl
  have hne (i : ι) (hi : S.Stores i) : i ≠ j := by
    rintro rfl
    exact hjstores hi
  obtain ⟨t₁, ht₁, ⟨hmutex₁, hdefault₁, hentry₁⟩, hstores₁, hrest₁⟩ :=
    h.exists_registered (g := g)
  have hj₁ : t₁.point j = .start := (hrest₁ j hjstores).trans h.start
  obtain ⟨o, ho⟩ := Option.isSome_iff_exists.1 hentry₁
  have hload : (S.machine g).Reaches Machine.anyStep t₁
      { t₁.goto j (.loaded (some (.old d))) with mutex := some j } := by
    refine .of_exec [j, j] (fun _ _ _ => trivial) ?_
    simp [Machine.exec, machine, step, hj, hj₁, hmutex₁, ho, hdefault₁, Shared.goto]
  obtain ⟨t₂, ht₂, hstores₂, hrest₂⟩ := exists_stored (S := S) (g := g)
    (s := { t₁.goto j (.loaded (some (.old d))) with mutex := some j })
    (fun i hi => (Function.update_of_ne (hne i hi) _ _).trans (hstores₁ i hi))
  have hj₂ : t₂.point j = .loaded (some (.old d)) :=
    (hrest₂ j hjstores).trans (Function.update_self ..)
  have hclear : (S.machine g).Reaches Machine.anyStep t₂ { t₂.goto j .finished with
      globals := (t₂.globals.storeDefault none).erase (S.name d), mutex := none } := by
    refine .of_exec [j, j] (fun _ _ _ => trivial) ?_
    simp [Machine.exec, machine, step, hj, hj₂, Globals.clearDefault, nameOf, Shared.goto]
  refine ⟨_, ((ht₁.trans hload).trans ht₂).trans hclear, rfl, rfl, fun i hi => ?_, fun i => ?_⟩
  · exact (Function.update_of_ne (hne i hi) _ _).trans (hstores₂ i hi)
  · by_cases hij : i = j
    · subst hij
      exact .inr (Function.update_self ..)
    · have hlast : Function.update t₂.point j .finished i = t₂.point i :=
        Function.update_of_ne hij _ _
      by_cases hi : S.Stores i
      · exact .inr (hlast.trans (hstores₂ i hi))
      · have hkept : t₂.point i = s.point i :=
          (hrest₂ i hi).trans ((Function.update_of_ne hij _ _).trans (hrest₁ i hi))
        exact (h.rest i).imp (fun hp => (hlast.trans hkept).trans hp)
          (fun hp => (hlast.trans hkept).trans hp)

theorem exists_cleared {d : Ref} (hd : g.defaultLogger = some d)
    (hj : S.call j = .removeLogger (S.name d))
    (hentry : (g.registry (S.name d)).isSome ∨ ∃ k impl, S.call k = .create (S.name d) impl) :
    ∃ s, (S.machine g).Reachable Machine.anyStep s ∧ Finished s ∧
      s.globals.defaultLogger = none := by
  obtain ⟨t, ht, hloadable⟩ := exists_loadable hd hj hentry
  obtain ⟨u, hu, hmutex, hdefault, hstores, hrest⟩ := hloadable.exists_cleared (g := g) hj
  -- the calls that are left make no logger the default
  obtain ⟨v, hv, ⟨-, hnone⟩, hfinished, hkept⟩ := each_of (S := S) (g := g) (u.point · = .start)
    (s := u) (q := .finished) (I := fun s => s.mutex = none ∧ s.globals.defaultLogger = none)
    (by
      rintro s i hstart hp ⟨hmutex, hdefault⟩
      obtain ⟨s', hs', hpoint, hmutex', hglobals⟩ := alone (S := S) (g := g) hmutex hp
      refine ⟨s', hs', hpoint, hmutex', ?_⟩
      rw [hglobals]
      have hi : ¬ S.Stores i := by
        intro hstore
        rw [hstores i hstore] at hstart
        cases hstart
      cases hc : S.call i with
      | setDefaultLogger logger =>
        cases logger with
        | none => rwa [perform_null hc]
        | some l => exact absurd ⟨l, hc⟩ hi
      | removeLogger name => rw [perform_remove hc, Globals.removeLogger_default, hdefault]; rfl
      | create name impl => rwa [perform_create hc])
    ⟨hmutex, hdefault⟩ (fun i hi => hi)
  refine ⟨v, (ht.trans hu).trans hv, fun i => ?_, hnone⟩
  by_cases hstart : u.point i = .start
  · exact hfinished i hstart
  · rw [hkept i hstart]
    exact (hrest i).resolve_left hstart

/-! ## What no sequential order leaves -/

omit [DecidableEq ι] [Fintype ι] in
/-- A property that the call `i` establishes and all calls keep holds after any order with `i`. -/
theorem foldl_of_mem {P : Globals (Object ι) → Prop} (hi : i ∈ order)
    (first : ∀ G, P (S.perform G i)) (keep : ∀ G k, P G → P (S.perform G k))
    (G : Globals (Object ι)) : P (order.foldl S.perform G) := by
  obtain ⟨before, after, rfl⟩ := List.append_of_mem hi
  rw [List.foldl_append, List.foldl_cons]
  exact List.foldlRecOn (motive := P) after S.perform (first _) fun G hG k _ => keep G k hG

omit [DecidableEq ι] [Fintype ι] in
/-- After sequential calls a logger that one of them made the default, and that is the default, is
registered unless a new logger has taken its entry. -/
theorem foldl_entry (hc : S.call i = .setDefaultLogger (some l)) (hi : i ∈ order)
    (G : Globals (Object ι))
    (hdefault : (order.foldl S.perform G).defaultLogger = some (.old l)) :
    (order.foldl S.perform G).registry (S.name l) = some (.old l) ∨
      ∃ k, (order.foldl S.perform G).registry (S.name l) = some (.made k) := by
  revert hdefault
  refine foldl_of_mem (P := fun G => G.defaultLogger = some (.old l) →
    G.registry (S.name l) = some (.old l) ∨ ∃ k, G.registry (S.name l) = some (.made k))
    hi (fun G _ => ?_) (fun G k hG => ?_) G
  · rw [perform_setDefault hc]
    exact .inl (Function.update_self ..)
  · cases hk : S.call k with
    | setDefaultLogger logger =>
      cases logger with
      | none => rwa [perform_null hk]
      | some l' =>
        rw [perform_setDefault hk]
        intro hd
        obtain rfl : l' = l := Object.old.inj (Option.some.inj hd)
        exact .inl (Function.update_self ..)
    | removeLogger name =>
      rw [perform_remove hk, Globals.removeLogger_default, Globals.removeLogger_registry,
        Option.filter_eq_some_iff]
      rintro ⟨hold, hkept⟩
      have hne : S.name l ≠ name := by
        rintro rfl
        rcases hG hold with hself | ⟨k', hmade⟩
        · simp [hself, nameOf] at hkept
        · simp [hmade, nameOf] at hkept
      rw [Function.update_of_ne hne]
      exact hG hold
    | create name impl =>
      rw [perform_create hk, Globals.registry_register]
      intro hold
      split
      · exact .inr ⟨k, rfl⟩
      · exact hG hold

omit [DecidableEq ι] [Fintype ι] in
/-- If no name is removed whose logger is made the default, sequential calls leave one of these
loggers the default. -/
theorem foldl_stored
    (hkept : ∀ i j l name, S.call i = .setDefaultLogger (some l) →
      S.call j = .removeLogger name → S.name l ≠ name)
    (hc : S.call i = .setDefaultLogger (some l)) (hi : i ∈ order) (G : Globals (Object ι)) :
    (order.foldl S.perform G).defaultLogger ≠ none := by
  have hstored := foldl_of_mem (S := S)
    (P := fun G => ∃ j l, S.call j = .setDefaultLogger (some l) ∧ G.defaultLogger = some (.old l))
    hi (fun G => ⟨i, l, hc, by rw [perform_setDefault hc]; rfl⟩)
    (fun G k ⟨j, l, hj, hd⟩ => by
      cases hk : S.call k with
      | setDefaultLogger logger =>
        cases logger with
        | none => exact ⟨j, l, hj, by rwa [perform_null hk]⟩
        | some l' => exact ⟨k, l', hk, by rw [perform_setDefault hk]; rfl⟩
      | removeLogger name =>
        refine ⟨j, l, hj, ?_⟩
        rw [perform_remove hk, Globals.removeLogger_default, hd, Option.filter_some_pos]
        simp [nameOf, hkept j k l name hj hk]
      | create name impl => exact ⟨j, l, hj, by rwa [perform_create hk]⟩) G
  obtain ⟨j, l, -, hd⟩ := hstored
  rw [hd]
  exact Option.some_ne_none _

/-- Every interleaving of the calls leaves the registry and the default logger as some sequential
order of them does, if and only if the calls are compatible. -/
theorem serial_iff (S : Calls ι) (g : Globals Ref) :
    (∀ s, (S.machine g).Reachable Machine.anyStep s → Finished s → S.Serial g s) ↔
      S.Compatible g := by
  refine ⟨fun h => ?_, fun h s hs hfinished => serial_of_compatible h hs hfinished⟩
  have hkept (i j : ι) (l : Ref) (name : Text) (hc : S.call i = .setDefaultLogger (some l))
      (hj : S.call j = .removeLogger name) : S.name l ≠ name := by
    rintro rfl
    obtain ⟨s, hs, hfinished, hdefault, hregistry⟩ := exists_unregistered (g := g) hc hj
    obtain ⟨order, ⟨-, hmem⟩, hr, hd⟩ := h s hs hfinished
    rcases foldl_entry hc (hmem i) _ (hd.trans hdefault) with hself | ⟨k, hmade⟩
    · rw [sequential] at hr
      simp [hr, hregistry] at hself
    · rw [sequential] at hr
      simp [hr, hregistry] at hmade
  refine ⟨hkept, fun i j l l' hc hj hname => ?_, fun i j l d hc hd hj => ?_⟩
  · by_contra hne
    obtain ⟨s, hs, hfinished, hdefault, hregistry⟩ := exists_crossed (g := g) hc hj hname hne
    obtain ⟨order, ⟨-, hmem⟩, hr, hd⟩ := h s hs hfinished
    rcases foldl_entry hc (hmem i) _ (hd.trans hdefault) with hself | ⟨k, hmade⟩
    · rw [sequential] at hr
      rw [hr, hregistry, Option.some.injEq, Object.old.injEq] at hself
      exact hne hself.symm
    · rw [sequential] at hr
      simp [hr, hregistry] at hmade
  · by_contra hentry
    have hentry : (g.registry (S.name d)).isSome ∨
        ∃ k impl, S.call k = .create (S.name d) impl := by
      by_contra hne
      simp only [not_or, Option.not_isSome_iff_eq_none, not_exists] at hne
      exact hentry hne
    obtain ⟨s, hs, hfinished, hnone⟩ := exists_cleared hd hj hentry
    obtain ⟨order, ⟨-, hmem⟩, -, hdefault⟩ := h s hs hfinished
    exact foldl_stored hkept hc (hmem i) _ (hdefault.trans hnone)

/-- One thread makes the logger `0` the default while the other removes its name. -/
def setDefaultAndRemove : Calls Bool where
  name := fun _ => ascii "net"
  call := fun removes =>
    bif removes then .removeLogger (ascii "net") else .setDefaultLogger (some 0)

/-- The logger is removed between its registration and the store of the default.  It stays the
default and is not registered, and no order of the two calls leaves that. -/
theorem exists_not_serial : ∃ s,
    (setDefaultAndRemove.machine .init).exec (setDefaultAndRemove.machine .init).init
      [false, true, true, true, true, false] = some s ∧
    Finished s ∧ s.globals.defaultLogger = some (.old 0) ∧
      s.globals.registry (ascii "net") = none ∧ ¬ setDefaultAndRemove.Serial .init s := by
  obtain ⟨s, hs, hfin⟩ := Option.map_eq_some_iff.1 (show
    ((setDefaultAndRemove.machine .init).exec (setDefaultAndRemove.machine .init).init
      [false, true, true, true, true, false]).map (fun s => (s.point false, s.point true,
        s.globals.defaultLogger, s.globals.registry (ascii "net"))) =
      some (.finished, .finished, some (.old 0), none) from rfl)
  simp only [Prod.mk.injEq] at hfin
  obtain ⟨hfalse, htrue, hdefault, hregistry⟩ := hfin
  refine ⟨s, hs, ?_, hdefault, hregistry, ?_⟩
  · intro i
    cases i with
    | false => exact hfalse
    | true => exact htrue
  · rintro ⟨order, ⟨-, hmem⟩, hr, hd⟩
    have hc : setDefaultAndRemove.call false = .setDefaultLogger (some 0) := rfl
    rcases foldl_entry hc (hmem false) _ (hd.trans hdefault) with hself | ⟨k, hmade⟩
    · exact absurd (hself.symm.trans ((congrFun hr _).trans hregistry)) (by simp)
    · exact absurd (hmade.symm.trans ((congrFun hr _).trans hregistry)) (by simp)

end Calls

end Registry

end ZephyrLog
