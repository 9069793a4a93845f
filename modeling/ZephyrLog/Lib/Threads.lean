import Mathlib.Algebra.BigOperators.Group.Finset.Basic
import Mathlib.Algebra.Order.BigOperators.Group.Finset
import Mathlib.Data.Fintype.BigOperators

/-!
# Counting threads

Finitely many threads, each with a local state, and a weight for every local state.  `total` is the
sum of the weights; a step of one thread changes it by the weights of that thread alone.
-/

namespace ZephyrLog

namespace Threads

variable {T σ : Type} [Fintype T] (f : σ → ℕ) (p : T → σ)

/-- The weights of the local states of all threads, added up. -/
def total : ℕ := ∑ t, f (p t)

variable {f p}

theorem le_total (t : T) : f (p t) ≤ total f p :=
  Finset.single_le_sum (f := fun t => f (p t)) (fun _ _ => Nat.zero_le _) (Finset.mem_univ t)

theorem total_eq_zero_iff : total f p = 0 ↔ ∀ t, f (p t) = 0 := by
  simp [total]

theorem exists_of_total_pos (h : 0 < total f p) : ∃ t, 0 < f (p t) := by
  by_contra hne
  have hzero : total f p = 0 :=
    total_eq_zero_iff.2 fun t => Nat.eq_zero_of_not_pos fun ht => hne ⟨t, ht⟩
  omega

theorem total_le_card (hf : ∀ x, f x ≤ 1) : total f p ≤ Fintype.card T := by
  calc total f p ≤ ∑ _t : T, 1 := Finset.sum_le_sum fun t _ => hf (p t)
    _ = Fintype.card T := by simp

variable [DecidableEq T]

/-- One thread's step changes the total by that thread's weights. -/
theorem total_update (f : σ → ℕ) (p : T → σ) (t : T) (x : σ) :
    total f (Function.update p t x) + f (p t) = total f p + f x := by
  have h (q : T → σ) : total f q = f (q t) + ∑ i ∈ Finset.univ.erase t, f (q i) :=
    (Finset.add_sum_erase _ (fun i => f (q i)) (Finset.mem_univ t)).symm
  have hrest : ∑ i ∈ Finset.univ.erase t, f (Function.update p t x i) =
      ∑ i ∈ Finset.univ.erase t, f (p i) :=
    Finset.sum_congr rfl fun i hi => by rw [Function.update_of_ne (Finset.ne_of_mem_erase hi)]
  rw [h, h p, hrest, Function.update_self]
  omega

/-- Two threads with weight at least one make a total of at least two. -/
theorem eq_of_total_le_one (h : total f p ≤ 1) {t t' : T} (ht : 0 < f (p t)) (ht' : 0 < f (p t')) :
    t = t' := by
  by_contra hne
  have hle : f (p t') ≤ ∑ i ∈ Finset.univ.erase t, f (p i) :=
    Finset.single_le_sum (f := fun i => f (p i)) (fun _ _ => Nat.zero_le _)
      (Finset.mem_erase.2 ⟨Ne.symm hne, Finset.mem_univ t'⟩)
  have hsum := Finset.add_sum_erase _ (fun i => f (p i)) (Finset.mem_univ t)
  rw [total, ← hsum] at h
  omega

end Threads

end ZephyrLog
