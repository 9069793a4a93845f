import Mathlib.Data.Nat.Find
import Mathlib.Order.WellFounded
import ZephyrLog.Lib.Transition

/-!
# Fair schedules

A schedule names the label whose turn it is at each time; a label that is not enabled then leaves
the state as it is.  Suppose that every step lowers a measure unless it leaves the state as it is,
and that in every state that is not yet done some label that has its turn again and again would
change the state.  Then every fair schedule comes to a state that is done (`Fair.exists_done`):
no party has to stay enabled until its turn comes.  The same holds of a part of the state while
others change the rest (`Fair.exists_part_done`), and both rest on one rule of descent
(`Fair.exists_of_descent`).  A component of a machine that has all its steps
runs under the schedule as it does alone (`run_project`).
-/

namespace ZephyrLog

namespace Machine

variable {State Label : Type}

/-- The state at each time when the labels of the schedule take their turns. -/
def run (M : Machine State Label) (s : State) (σ : ℕ → Label) : ℕ → State
  | 0 => s
  | n + 1 => (M.step (M.run s σ n) (σ n)).getD (M.run s σ n)

/-- Each label of `often` has its turn again and again. -/
def Fair (σ : ℕ → Label) (often : Label → Prop) : Prop :=
  ∀ l, often l → ∀ n, ∃ m, n ≤ m ∧ σ m = l

variable {M : Machine State Label} {guard : State → Label → Prop} {s t : State} {σ : ℕ → Label}
  {often : Label → Prop}

theorem run_add (M : Machine State Label) (s : State) (σ : ℕ → Label) (n m : ℕ) :
    M.run s σ (n + m) = M.run (M.run s σ n) (fun k => σ (n + k)) m := by
  induction m with
  | zero => rfl
  | succ m ih =>
    rw [← Nat.add_assoc]
    simp only [run, ih]

/-- A schedule whose labels satisfy the guard when they have their turn is a guarded run. -/
theorem run_reaches (hguard : ∀ n, guard (M.run s σ n) (σ n)) (n : ℕ) :
    M.Reaches guard s (M.run s σ n) := by
  induction n with
  | zero => exact .refl
  | succ n ih =>
    cases hs : M.step (M.run s σ n) (σ n) with
    | none =>
      rw [run, hs]
      exact ih
    | some u =>
      rw [run, hs]
      exact .tail _ ih (hguard n) hs

theorem run_succ {n : ℕ} (hs : M.step (M.run s σ n) (σ n) = some t) : M.run s σ (n + 1) = t := by
  rw [run, hs]
  rfl

/-- What holds at some time and is kept by the steps from then on holds from then on. -/
theorem run_invariant {P : State → Prop} {k n : ℕ} (init : P (M.run s σ k))
    (step : ∀ m u, P (M.run s σ m) → M.step (M.run s σ m) (σ m) = some u → P u) (hn : k ≤ n) :
    P (M.run s σ n) := by
  induction n, hn using Nat.le_induction with
  | base => exact init
  | succ m _ ih =>
    cases hs : M.step (M.run s σ m) (σ m) with
    | none => rwa [run, hs]
    | some u =>
      rw [run_succ hs]
      exact step m u ih hs

/-- The machine that keeps a history runs under every schedule as it does without. -/
theorem run_record {Event : Type} (event : State → Label → List Event) (es : List Event)
    (hguard : ∀ n, guard (M.run s σ n) (σ n)) (n : ℕ) :
    ∃ es', (M.record event).run (s, es) σ n = (M.run s σ n, es') ∧
      (M.record event).Reaches (fun x => guard x.1) (s, es) (M.run s σ n, es') := by
  induction n with
  | zero => exact ⟨es, rfl, .refl⟩
  | succ n ih =>
    obtain ⟨es', hrun, hreaches⟩ := ih
    have hrecord : (M.record event).step (M.run s σ n, es') (σ n) =
        (M.step (M.run s σ n) (σ n)).map fun t => (t, es' ++ event (M.run s σ n) (σ n)) := rfl
    cases hs : M.step (M.run s σ n) (σ n) with
    | none =>
      refine ⟨es', ?_, ?_⟩
      · rw [run, run, hrun, hrecord, hs]
        rfl
      · rwa [run, hs]
    | some t =>
      rw [hs, Option.map_some] at hrecord
      refine ⟨es' ++ event (M.run s σ n) (σ n), ?_, ?_⟩
      · rw [run, hrun, hrecord, run_succ hs]
        rfl
      · rw [run_succ hs]
        exact .tail _ hreaches (hguard n) hrecord

/-- Under every schedule a component takes its turns as it does alone, if each step is one of the
component and the component has no others. -/
theorem run_project {State' : Type} {N : Machine State' Label} (f : State → State')
    (step : ∀ t l u, M.step t l = some u → N.step (f t) l = some (f u))
    (enabled : ∀ t l u', M.Reaches guard s t → N.step (f t) l = some u' → ∃ u, M.step t l = some u)
    (hguard : ∀ n, guard (M.run s σ n) (σ n)) (n : ℕ) :
    f (M.run s σ n) = N.run (f s) σ n := by
  induction n with
  | zero => rfl
  | succ n ih =>
    rw [run, run, ← ih]
    cases hs : M.step (M.run s σ n) (σ n) with
    | some u =>
      rw [step _ _ _ hs]
      rfl
    | none =>
      cases hs' : N.step (f (M.run s σ n)) (σ n) with
      | none => rfl
      | some u' =>
        obtain ⟨u, hu⟩ := enabled _ _ u' (run_reaches hguard n) hs'
        cases hs.symm.trans hu

namespace Fair

theorem mono (h : Fair σ often) {often' : Label → Prop} (hsub : ∀ l, often' l → often l) :
    Fair σ often' := fun l hl => h l (hsub l hl)

/-- A schedule that goes round is fair to every label that it names. -/
theorem of_periodic {p : ℕ} (hp : 0 < p) (hround : ∀ n, σ (n + p) = σ n)
    (hnamed : ∀ l, often l → ∃ r, σ r = l) : Fair σ often := by
  intro l hl n
  obtain ⟨r, rfl⟩ := hnamed l hl
  have hrounds (k : ℕ) : σ (r + p * k) = σ r := by
    induction k with
    | zero => rfl
    | succ k ih => rw [Nat.mul_succ, ← Nat.add_assoc, hround, ih]
  exact ⟨r + p * n, (Nat.le_mul_of_pos_left n hp).trans (Nat.le_add_left _ _), hrounds n⟩

theorem drop (h : Fair σ often) (n : ℕ) : Fair (fun k => σ (n + k)) often := by
  intro l hl k
  obtain ⟨m, hm, hσ⟩ := h l hl (n + k)
  refine ⟨m - n, by omega, ?_⟩
  rw [← hσ]
  exact congrArg σ (by omega)

variable {ι Part : Type}

/-- If a label that is scheduled again and again would change the part of the state whenever it has
its turn before the part changes, the part does change. -/
theorem exists_change (h : Fair σ often) (part : State → Part) {l : Label} (hl : often l)
    (hchange : ∀ n, part (M.run s σ n) = part s →
      ∃ u, M.step (M.run s σ n) l = some u ∧ part u ≠ part s) :
    ∃ n, part (M.run s σ n) ≠ part s := by
  by_contra hno
  push Not at hno
  obtain ⟨m, -, hm⟩ := h l hl 0
  obtain ⟨u, hu, hne⟩ := hchange m (hno m)
  apply hne
  calc part u = part (M.run s σ (m + 1)) := by rw [run_succ (hm.symm ▸ hu)]
    _ = part s := hno (m + 1)

/-- The first change of the part under a schedule. -/
theorem exists_first_change (part : State → Part) (h : ∃ n, part (M.run s σ n) ≠ part s) :
    ∃ n u, part (M.run s σ n) = part s ∧ M.step (M.run s σ n) (σ n) = some u ∧
      part u ≠ part s ∧ M.run s σ (n + 1) = u := by
  classical
  obtain ⟨n, hn⟩ : ∃ n, Nat.find h = n + 1 := Nat.exists_eq_succ_of_ne_zero fun hzero =>
    Nat.find_spec h (by rw [hzero]; rfl)
  have hbefore : part (M.run s σ n) = part s := not_not.1 (Nat.find_min h (by omega))
  have hafter := Nat.find_spec h
  rw [hn] at hafter
  cases hs : M.step (M.run s σ n) (σ n) with
  | none =>
    rw [run, hs] at hafter
    exact absurd hbefore hafter
  | some u =>
    exact ⟨n, u, hbefore, hs, run_succ hs ▸ hafter, run_succ hs⟩

variable [Preorder ι] [WellFoundedLT ι]

/-- If every fair schedule comes from each state of `inv` that is not done to a state that is done,
or to one of `inv` with a smaller measure, it comes to one that is done. -/
theorem exists_of_descent (guard : State → Label → Prop) (inv : State → Prop) (measure : State → ι)
    (done : State → Prop)
    (descend : ∀ t τ, inv t → Fair τ often → (∀ n, guard (M.run t τ n) (τ n)) → ¬ done t →
      ∃ n, done (M.run t τ n) ∨ inv (M.run t τ n) ∧ measure (M.run t τ n) < measure t)
    (hs : inv s) (hfair : Fair σ often) (hguard : ∀ n, guard (M.run s σ n) (σ n)) :
    ∃ n, done (M.run s σ n) := by
  induction hx : measure s using WellFoundedLT.induction generalizing s σ with
  | ind x ih =>
    subst hx
    by_cases hdone : done s
    · exact ⟨0, hdone⟩
    obtain ⟨n, hn | ⟨hinv, hless⟩⟩ := descend s σ hs hfair hguard hdone
    · exact ⟨n, hn⟩
    obtain ⟨m, hm⟩ := ih _ hless hinv (hfair.drop n) (fun k => by
      rw [← run_add]
      exact hguard _) rfl
    refine ⟨n + m, ?_⟩
    rwa [run_add]

/-- Every fair schedule brings a part of the state to where it is done, whatever happens in the rest
of the state: every step that changes the part lowers the measure, and while the part is not done a
label that is scheduled again and again would change it whenever it has its turn. -/
theorem exists_part_done (guard : State → Label → Prop) (part : State → Part)
    (measure : Part → ι) (done : Part → Prop)
    (less : ∀ t l u, M.Reaches guard s t → guard t l → M.step t l = some u →
      part u = part t ∨ measure (part u) < measure (part t))
    (move : ∀ t, M.Reaches guard s t → ¬ done (part t) → ∃ l, often l ∧
      ∀ t', M.Reaches guard t t' → part t' = part t →
        ∃ u, M.step t' l = some u ∧ part u ≠ part t)
    (hfair : Fair σ often) (hguard : ∀ n, guard (M.run s σ n) (σ n)) :
    ∃ n, done (part (M.run s σ n)) := by
  refine exists_of_descent guard (M.Reaches guard s) (fun t => measure (part t))
    (fun t => done (part t)) (fun t τ ht hτ hgτ hdone => ?_) .refl hfair hguard
  obtain ⟨l, hl, hmove⟩ := move t ht hdone
  obtain ⟨n, u, hrun, hu, hchange, hnext⟩ := exists_first_change part
    (hτ.exists_change part hl fun n => hmove _ (run_reaches hgτ n))
  have hless := (less _ _ u (ht.trans (run_reaches hgτ n)) (hgτ n) hu).resolve_left
    (hrun ▸ hchange)
  refine ⟨n + 1, .inr ⟨ht.trans (run_reaches hgτ (n + 1)), ?_⟩⟩
  rwa [hnext, ← hrun]

/-- Every fair schedule comes to a state that is done. -/
theorem exists_done (guard : State → Label → Prop) (measure : State → ι) (done : State → Prop)
    (less : ∀ t l u, M.Reaches guard s t → guard t l → M.step t l = some u →
      u = t ∨ measure u < measure t)
    (move : ∀ t, M.Reaches guard s t → ¬ done t → ∃ l u, often l ∧ M.step t l = some u ∧ u ≠ t)
    (hfair : Fair σ often) (hguard : ∀ n, guard (M.run s σ n) (σ n)) :
    ∃ n, done (M.run s σ n) := by
  refine exists_part_done guard id measure done less (fun t ht hdone => ?_) hfair hguard
  obtain ⟨l, u, hl, hu, hne⟩ := move t ht hdone
  refine ⟨l, hl, fun t' _ heq => ⟨u, ?_, hne⟩⟩
  rwa [show t' = t from heq]

end Fair

end Machine

end ZephyrLog
