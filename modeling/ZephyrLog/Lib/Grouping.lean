import Mathlib.Data.List.Perm.Basic

/-!
# Lists in numbered groups

The groups `f 0, …, f (n - 1)` joined are `(List.range n).flatMap f`.  Up to the order, this list
grows with any one of its groups, and a list whose elements have numbers is joined of the groups of
its elements with one number.
-/

namespace ZephyrLog

variable {α : Type*}

/-- One of the groups grows by an element. -/
theorem flatMap_range_perm {f f' : ℕ → List α} {n i : ℕ} {x : α} (hi : i < n)
    (hself : f' i = f i ++ [x]) (hne : ∀ j ≠ i, f' j = f j) :
    ((List.range n).flatMap f').Perm (x :: (List.range n).flatMap f) := by
  induction n with
  | zero => exact absurd hi (Nat.not_lt_zero i)
  | succ n ih =>
    simp only [List.range_succ, List.flatMap_append, List.flatMap_singleton]
    rcases Nat.lt_succ_iff_lt_or_eq.1 hi with hlt | rfl
    · rw [hne n (Nat.ne_of_gt hlt)]
      exact (ih hlt).append_right (f n)
    · have hsame : (List.range i).flatMap f' = (List.range i).flatMap f :=
        List.flatMap_congr fun j hj => hne j (Nat.ne_of_lt (List.mem_range.1 hj))
      rw [hsame, hself, ← List.append_assoc]
      exact List.perm_append_singleton x _

/-- The elements of a list are grouped by their numbers. -/
theorem flatMap_filter_perm (f : α → ℕ) (L : List α) (n : ℕ) :
    ((List.range n).flatMap fun i => L.filter (f · = i)).Perm (L.filter (f · < n)) := by
  induction n with
  | zero => simp
  | succ n ih =>
    rw [List.range_succ, List.flatMap_append, List.flatMap_singleton]
    have hlt : (L.filter (f · < n + 1)).filter (f · < n) = L.filter (f · < n) := by
      rw [List.filter_filter]
      refine List.filter_congr fun x _ => ?_
      grind
    have heq : (L.filter (f · < n + 1)).filter (fun x => !decide (f x < n)) =
        L.filter (f · = n) := by
      rw [List.filter_filter]
      refine List.filter_congr fun x _ => ?_
      grind
    have hsplit := List.filter_append_perm (f · < n) (L.filter (f · < n + 1))
    rw [hlt, heq] at hsplit
    exact (ih.append_right _).trans hsplit

end ZephyrLog
