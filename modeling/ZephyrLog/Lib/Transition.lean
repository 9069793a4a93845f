import Mathlib.Data.List.Basic
import Mathlib.Data.List.Induction
import Mathlib.Order.Basic

/-!
# Partial labelled transition systems

A `Machine` has one initial state and a partial step for every label.  `exec` runs a list of
labels; `Reaches guard` relates two states joined by a run each of whose steps satisfies `guard`.
Properties of all runs are proved with `Reachable.invariant`, and the runs of a component are
obtained from those of a system with `Reaches.project`.  `throughout_iff` shows a guard to be the
exact condition for a property of a run, `iff_obeys` does so for a property that is lost for good,
and `record` keeps a history beside a machine.
-/

namespace ZephyrLog

/-- A transition system with one initial state and at most one successor for every label. -/
structure Machine (State Label : Type) where
  init : State
  step : State → Label → Option State

namespace Machine

variable {State Label State' Label' : Type}

/-- Run a list of labels; `none` when one of them is not enabled. -/
def exec (M : Machine State Label) : State → List Label → Option State
  | s, [] => some s
  | s, l :: ls => (M.step s l).bind fun s' => M.exec s' ls

/-- `t` is reached from `s` by a run each of whose steps satisfies `guard`. -/
inductive Reaches (M : Machine State Label) (guard : State → Label → Prop) (s : State) :
    State → Prop
  | refl : Reaches M guard s s
  | tail {t u : State} (l : Label) : Reaches M guard s t → guard t l → M.step t l = some u →
      Reaches M guard s u

/-- `s` is reached from the initial state by a run each of whose steps satisfies `guard`. -/
abbrev Reachable (M : Machine State Label) (guard : State → Label → Prop) (s : State) : Prop :=
  M.Reaches guard M.init s

/-- The guard that allows every step. -/
def anyStep : State → Label → Prop := fun _ _ => True

variable {M : Machine State Label} {guard guard' : State → Label → Prop} {s t u : State}

theorem exec_cons (M : Machine State Label) (s : State) (l : Label) (ls : List Label) :
    M.exec s (l :: ls) = (M.step s l).bind fun s' => M.exec s' ls := rfl

theorem exec_append (M : Machine State Label) (s : State) (ls ls' : List Label) :
    M.exec s (ls ++ ls') = (M.exec s ls).bind fun s' => M.exec s' ls' := by
  induction ls generalizing s with
  | nil => rfl
  | cons l ls ih =>
    rw [List.cons_append, exec_cons, exec_cons]
    cases M.step s l with
    | none => rfl
    | some s' => exact ih s'

namespace Reaches

theorem single (l : Label) (hg : guard s l) (h : M.step s l = some t) : M.Reaches guard s t :=
  .tail l .refl hg h

theorem trans (h : M.Reaches guard s t) (h' : M.Reaches guard t u) : M.Reaches guard s u := by
  induction h' with
  | refl => exact h
  | tail l _ hg hs ih => exact .tail l ih hg hs

theorem mono (hguard : ∀ s l, guard s l → guard' s l) (h : M.Reaches guard s t) :
    M.Reaches guard' s t := by
  induction h with
  | refl => exact .refl
  | tail l _ hg hs ih => exact .tail l ih (hguard _ _ hg) hs

/-- A run of labels that all satisfy the guard in every state. -/
theorem of_exec (ls : List Label) (hguard : ∀ l ∈ ls, ∀ s, guard s l)
    (h : M.exec s ls = some t) : M.Reaches guard s t := by
  induction ls generalizing s with
  | nil => cases h; exact .refl
  | cons l ls ih =>
    rw [exec_cons, Option.bind_eq_some_iff] at h
    obtain ⟨s', hs, h⟩ := h
    exact (single l (hguard l List.mem_cons_self s) hs).trans
      (ih (fun l' hl' => hguard l' (List.mem_cons_of_mem _ hl')) h)

end Reaches

/-- An invariant that holds initially and is kept by every guarded step holds in every reachable
state. -/
theorem Reachable.invariant {P : State → Prop} (h : M.Reachable guard s) (init : P M.init)
    (step : ∀ s l s', P s → guard s l → M.step s l = some s' → P s') : P s := by
  induction h with
  | refl => exact init
  | tail l _ hg hs ih => exact step _ l _ ih hg hs

/-- A run whose every step a projection turns into a run of another machine is turned into one. -/
theorem Reaches.project {N : Machine State' Label'} {G : State' → Label' → Prop}
    (f : State → State')
    (step : ∀ s l s', guard s l → M.step s l = some s' → N.Reaches G (f s) (f s'))
    (h : M.Reaches guard s t) : N.Reaches G (f s) (f t) := by
  induction h with
  | refl => exact .refl
  | tail l _ hg hs ih => exact ih.trans (step _ l _ hg hs)

/-! ## Runs given by their labels -/

theorem exec_concat (M : Machine State Label) (s : State) (ls : List Label) (l : Label) :
    M.exec s (ls ++ [l]) = (M.exec s ls).bind fun t => M.step t l := by
  rw [exec_append]
  congr 1
  funext t
  rw [exec_cons]
  cases M.step t l with
  | none => rfl
  | some u => rfl

/-- After every part of the run of `ls` the property holds. -/
def Throughout (M : Machine State Label) (P : List Label → State → Prop) (ls : List Label) : Prop :=
  ∀ ls' s, ls' <+: ls → M.exec M.init ls' = some s → P ls' s

/-- Every step of the run of `ls` satisfies the guard. -/
def Obeys (M : Machine State Label) (guard : List Label → State → Label → Prop)
    (ls : List Label) : Prop :=
  ∀ ls' l s t, ls' ++ [l] <+: ls → M.exec M.init ls' = some s → M.step s l = some t → guard ls' s l

section Obeys

variable {ls : List Label} {l : Label}

theorem obeys_concat {guard : List Label → State → Label → Prop}
    (hs : M.exec M.init ls = some s) (ht : M.step s l = some t) :
    M.Obeys guard (ls ++ [l]) ↔ M.Obeys guard ls ∧ guard ls s l := by
  constructor
  · intro h
    refine ⟨fun ls' l' s' t' hpre => ?_, h ls l s t List.prefix_rfl hs ht⟩
    exact h ls' l' s' t' (hpre.trans (List.prefix_append _ _))
  · rintro ⟨h, hg⟩ ls' l' s' t' hpre hs' ht'
    rcases List.prefix_concat_iff.1 hpre with heq | hpre
    · obtain ⟨rfl, hl⟩ := List.append_inj' heq rfl
      cases hl
      cases hs.symm.trans hs'
      exact hg
    · exact h ls' l' s' t' hpre hs' ht'

/-- The run of a list of labels, all of whose steps satisfy a guard of the single step. -/
theorem Obeys.reachable (h : M.Obeys (fun _ => guard) ls) (hs : M.exec M.init ls = some s) :
    M.Reachable guard s := by
  induction ls using List.reverseRecOn generalizing s with
  | nil =>
    cases hs
    exact .refl
  | append_singleton ls l ih =>
    rw [exec_concat, Option.bind_eq_some_iff] at hs
    obtain ⟨t, ht, hs⟩ := hs
    obtain ⟨h, hg⟩ := (obeys_concat ht hs).1 h
    exact .tail l (ih h ht) hg hs

/-- If a step keeps `P` exactly when it satisfies the guard, and no step restores it, then `P` holds
after a run exactly when all steps of the run satisfied the guard. -/
theorem iff_obeys {P : State → Prop} {exact : State → Label → Prop} (init : P M.init)
    (step : ∀ s l t, M.Reachable guard s → guard s l → M.step s l = some t →
      (P t ↔ P s ∧ exact s l))
    (h : M.Obeys (fun _ => guard) ls) (hs : M.exec M.init ls = some s) :
    P s ↔ M.Obeys (fun _ => exact) ls := by
  induction ls using List.reverseRecOn generalizing s with
  | nil =>
    cases hs
    refine iff_of_true init fun ls' l s t hpre => ?_
    simp at hpre
  | append_singleton ls l ih =>
    rw [exec_concat, Option.bind_eq_some_iff] at hs
    obtain ⟨t, ht, hs⟩ := hs
    obtain ⟨h, hg⟩ := (obeys_concat ht hs).1 h
    rw [step t l s (h.reachable ht) hg hs, ih h ht, obeys_concat ht hs]

end Obeys

section Exact

variable {P Q : List Label → State → Prop} {guard : List Label → State → Label → Prop}

/-- A guard is exact for a property `P` if its steps keep an invariant `Q` that implies `P`, and any
other step from a state with `Q` breaks `P`: then `P` holds throughout a run exactly when all steps
of the run satisfy the guard. -/
theorem throughout_iff (ls : List Label) (init : Q [] M.init) (sound : ∀ ls s, Q ls s → P ls s)
    (keep : ∀ ls' s l t, ls' ++ [l] <+: ls → Q ls' s → guard ls' s l → M.step s l = some t →
      Q (ls' ++ [l]) t)
    (broken : ∀ ls' s l t, ls' ++ [l] <+: ls → Q ls' s → ¬ guard ls' s l → M.step s l = some t →
      ¬ P (ls' ++ [l]) t) : M.Throughout P ls ↔ M.Obeys guard ls := by
  constructor
  · intro h
    have hguard (ls' : List Label) (l : Label) (s t : State) (hpre : ls' ++ [l] <+: ls)
        (hs : M.exec M.init ls' = some s) (ht : M.step s l = some t) (hQ : Q ls' s) :
        guard ls' s l := by
      by_contra hne
      refine broken ls' s l t hpre hQ hne ht (h (ls' ++ [l]) t hpre ?_)
      rw [exec_concat, hs]
      exact ht
    have hinv (ls' : List Label) : ∀ s, ls' <+: ls → M.exec M.init ls' = some s → Q ls' s := by
      induction ls' using List.reverseRecOn with
      | nil =>
        intro s _ hs
        cases hs
        exact init
      | append_singleton ls' l ih =>
        intro s hpre hs
        rw [exec_concat, Option.bind_eq_some_iff] at hs
        obtain ⟨t, ht, hs⟩ := hs
        have hQ := ih t ((List.prefix_append _ _).trans hpre) ht
        exact keep ls' t l s hpre hQ (hguard ls' l t s hpre ht hs hQ) hs
    exact fun ls' l s t hpre hs ht =>
      hguard ls' l s t hpre hs ht (hinv ls' s ((List.prefix_append _ _).trans hpre) hs)
  · intro h ls' s hpre hs
    refine sound ls' s ?_
    induction ls' using List.reverseRecOn generalizing s with
    | nil =>
      cases hs
      exact init
    | append_singleton ls' l ih =>
      rw [exec_concat, Option.bind_eq_some_iff] at hs
      obtain ⟨t, ht, hs⟩ := hs
      have hQ := ih t ((List.prefix_append _ _).trans hpre) ht
      exact keep ls' t l s hpre hQ (h ls' l t s hpre ht hs) hs

end Exact

/-- The machine whose steps all satisfy the guard. -/
def restrict (M : Machine State Label) (guard : State → Label → Prop)
    [∀ s l, Decidable (guard s l)] : Machine State Label where
  init := M.init
  step s l := if guard s l then M.step s l else none

theorem Reaches.of_restrict [∀ s l, Decidable (guard s l)] {ls : List Label}
    (h : (M.restrict guard).exec s ls = some t) : M.Reaches guard s t := by
  induction ls generalizing s with
  | nil =>
    cases h
    exact .refl
  | cons l ls ih =>
    rw [exec_cons, Option.bind_eq_some_iff] at h
    obtain ⟨s', hs, h⟩ := h
    obtain ⟨hg, hs⟩ := Option.ite_none_right_eq_some.1 hs
    exact (single l hg hs).trans (ih h)

/-! ## Histories -/

variable {Event : Type}

/-- The machine that also keeps the list of the events of its steps. -/
def record (M : Machine State Label) (event : State → Label → List Event) :
    Machine (State × List Event) Label where
  init := (M.init, [])
  step x l := (M.step x.1 l).map fun s => (s, x.2 ++ event x.1 l)

/-- A run with a history is a run. -/
theorem Reaches.of_record {event : State → Label → List Event} {es : List Event}
    (h : (M.record event).Reachable (fun x l => guard x.1 l) (s, es)) : M.Reachable guard s := by
  refine h.project (N := M) (G := guard) Prod.fst fun x l y hg hs => ?_
  obtain ⟨t, ht, rfl⟩ := Option.map_eq_some_iff.1 hs
  exact .single l hg ht

/-- Every run has a history. -/
theorem Reaches.record (h : M.Reachable guard s) (event : State → Label → List Event) :
    ∃ es, (M.record event).Reachable (fun x l => guard x.1 l) (s, es) := by
  induction h with
  | refl => exact ⟨[], .refl⟩
  | @tail t u l _ hg hs ih =>
    obtain ⟨es, hes⟩ := ih
    exact ⟨es ++ event t l, .tail l hes hg (by simp [Machine.record, hs])⟩

end Machine

end ZephyrLog
