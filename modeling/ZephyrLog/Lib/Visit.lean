import Mathlib.Data.Set.Function
import Mathlib.Data.Nat.Init
import Mathlib.Order.Interval.Set.Basic

/-!
# Initial segments of a visiting order

A reader visits cells in the order `v 0, v 1, …`, which may come back to a cell.  `Filled v R k`
says that the set `R` consists of the first `k` cells visited, each visited once; this is when a
reader that stops at the first cell outside `R` has seen all of `R`.  `ReachedThrough v R w` says
that the reader comes to `w` through cells of `R` only.  The lemmas say how `Filled` changes when a
cell joins `R` and when the reader takes one step.
-/

namespace ZephyrLog

variable {ι : Type*} {v : ℕ → ι} {R S : Set ι} {w : ι} {k k' : ℕ}

/-- `R` is the set of the first `k` cells visited, each visited once. -/
structure Filled (v : ℕ → ι) (R : Set ι) (k : ℕ) : Prop where
  inj : Set.InjOn v (Set.Iio k)
  mem : ∀ i, i ∈ R ↔ ∃ j < k, v j = i

/-- The reader comes to `w` through cells of `R`, visiting no cell twice. -/
def ReachedThrough (v : ℕ → ι) (R : Set ι) (w : ι) : Prop :=
  ∃ j, v j = w ∧ (∀ i < j, v i ∈ R) ∧ Set.InjOn v (Set.Iic j)

theorem ReachedThrough.mono (h : ReachedThrough v R w) (hRS : R ⊆ S) : ReachedThrough v S w := by
  obtain ⟨j, hj, hthrough, hinj⟩ := h
  exact ⟨j, hj, fun i hi => hRS (hthrough i hi), hinj⟩

theorem filled_zero (v : ℕ → ι) : Filled v ∅ 0 where
  inj := by intro a ha; cases ha
  mem := by simp

namespace Filled

theorem visit_mem (h : Filled v R k) {j : ℕ} (hj : j < k) : v j ∈ R := (h.mem _).2 ⟨j, hj, rfl⟩

theorem reachedThrough_of_mem (h : Filled v R k) (hw : w ∈ R) : ReachedThrough v R w := by
  obtain ⟨j, hj, rfl⟩ := (h.mem w).1 hw
  exact ⟨j, rfl, fun i hi => h.visit_mem (hi.trans hj),
    h.inj.mono fun i hi => lt_of_le_of_lt (Set.mem_Iic.1 hi) hj⟩

/-- Adding a cell that the reader reaches through `R` extends the segment. -/
theorem insert (h : Filled v R k) (hw : ReachedThrough v (Insert.insert w R) w) :
    ∃ k', Filled v (Insert.insert w R) k' := by
  by_cases hmem : w ∈ R
  · exact ⟨k, by rwa [Set.insert_eq_of_mem hmem]⟩
  obtain ⟨j, hj, hthrough, hinj⟩ := hw
  have through : ∀ i < j, v i ∈ R := fun i hi => (hthrough i hi).resolve_left fun heq =>
    hi.ne (hinj hi.le (Set.mem_Iic.2 le_rfl) (heq.trans hj.symm))
  have hkj : k ≤ j := not_lt.1 fun hlt => hmem (hj ▸ h.visit_mem hlt)
  -- were `k` passed on the way, the cell `v k` would be visited twice
  have hjk : j = k := by
    refine le_antisymm (not_lt.1 fun hlt => ?_) hkj
    obtain ⟨l, hl, hlk⟩ := (h.mem _).1 (through k hlt)
    exact hl.ne (hinj (hl.trans hlt).le hlt.le hlk)
  subst hjk
  refine ⟨j + 1, hinj.mono fun i hi => Nat.lt_succ_iff.1 hi, fun i => ?_⟩
  rw [Set.mem_insert_iff, h.mem]
  constructor
  · rintro (rfl | ⟨l, hl, rfl⟩)
    · exact ⟨j, Nat.lt_succ_self j, hj⟩
    · exact ⟨l, hl.trans (Nat.lt_succ_self j), rfl⟩
  · rintro ⟨l, hl, rfl⟩
    rcases Nat.lt_succ_iff_lt_or_eq.1 hl with hl | rfl
    · exact .inr ⟨l, hl, rfl⟩
    · exact .inl hj

/-- Conversely, a cell whose addition keeps the segment shape is reached through `R`. -/
theorem reachedThrough_of_insert (h : Filled v R k) (h' : Filled v (Insert.insert w R) k') :
    ReachedThrough v R w := by
  by_cases hmem : w ∈ R
  · exact h.reachedThrough_of_mem hmem
  have hkk : k < k' := by
    by_contra hle
    obtain ⟨l, hl, hlw⟩ := (h'.mem w).1 (Set.mem_insert w R)
    exact hmem (hlw ▸ h.visit_mem (hl.trans_le (not_lt.1 hle)))
  have hvk : v k = w := by
    rcases Set.mem_insert_iff.1 (h'.visit_mem hkk) with heq | hR
    · exact heq
    · obtain ⟨l, hl, hlk⟩ := (h.mem _).1 hR
      exact absurd (h'.inj (hl.trans hkk) hkk hlk) hl.ne
  exact ⟨k, hvk, fun i hi => h.visit_mem hi, h'.inj.mono fun i hi => lt_of_le_of_lt hi hkk⟩

/-- The reader takes one step and removes the cell it has visited. -/
theorem tail (h : Filled v R (k + 1)) : Filled (fun j => v (j + 1)) (R \ {v 0}) k where
  inj := fun a ha b hb hab =>
    Nat.succ_injective (h.inj (Nat.succ_lt_succ ha) (Nat.succ_lt_succ hb) hab)
  mem := by
    intro i
    rw [Set.mem_sdiff, Set.mem_singleton_iff, h.mem]
    constructor
    · rintro ⟨⟨j, hj, rfl⟩, hne⟩
      cases j with
      | zero => exact absurd rfl hne
      | succ j => exact ⟨j, Nat.lt_of_succ_lt_succ hj, rfl⟩
    · rintro ⟨j, hj, rfl⟩
      refine ⟨⟨j + 1, Nat.succ_lt_succ hj, rfl⟩, fun heq => ?_⟩
      exact absurd (h.inj (Nat.succ_lt_succ hj) (Nat.succ_pos k) heq) (Nat.succ_ne_zero j)

/-- The reverse of `tail`. -/
theorem cons (h : Filled (fun j => v (j + 1)) (R \ {v 0}) k) (h0 : v 0 ∈ R) :
    Filled v R (k + 1) where
  inj := by
    intro a ha b hb hab
    have out : ∀ j < k, v (j + 1) ≠ v 0 := fun j hj heq => ((h.mem _).2 ⟨j, hj, rfl⟩).2 heq
    cases a with
    | zero =>
      cases b with
      | zero => rfl
      | succ b => exact absurd hab.symm (out b (Nat.lt_of_succ_lt_succ hb))
    | succ a =>
      cases b with
      | zero => exact absurd hab (out a (Nat.lt_of_succ_lt_succ ha))
      | succ b =>
        exact congrArg Nat.succ
          (h.inj (Nat.lt_of_succ_lt_succ ha) (Nat.lt_of_succ_lt_succ hb) hab)
  mem := by
    intro i
    constructor
    · intro hi
      by_cases heq : i = v 0
      · exact ⟨0, Nat.succ_pos k, heq.symm⟩
      · obtain ⟨j, hj, rfl⟩ := (h.mem i).1 ⟨hi, heq⟩
        exact ⟨j + 1, Nat.succ_lt_succ hj, rfl⟩
    · rintro ⟨j, hj, rfl⟩
      cases j with
      | zero => exact h0
      | succ j => exact ((h.mem _).2 ⟨j, Nat.lt_of_succ_lt_succ hj, rfl⟩).1

/-- A segment whose first cell is missing is empty. -/
theorem eq_zero (h : Filled v R k) (h0 : v 0 ∉ R) : k = 0 :=
  Nat.eq_zero_of_not_pos fun hk => h0 (h.visit_mem hk)

end Filled

end ZephyrLog
