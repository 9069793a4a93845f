import Mathlib.Data.List.Nodup

/-!
# Objects that live as long as they are pointed to

Objects are made, pointers to them are copied, moved and given up, and an object is destroyed when
its last pointer is given up.  `Lifetime` says that the objects pointed to are those that have been
made and not destroyed, so that no pointer dangles, nothing leaks, and nothing is destroyed twice.
It is kept by three kinds of steps: pointers are copied or moved, so that the same objects are
pointed to; an object is made; a pointer is given up.
-/

namespace ZephyrLog

/-- The objects pointed to are those made and not destroyed, and none is destroyed twice. -/
structure Lifetime {R : Type} (made pointed : R → Prop) (destroyed : List R) : Prop where
  pointed_iff : ∀ r, pointed r ↔ made r ∧ r ∉ destroyed
  made : ∀ r ∈ destroyed, made r
  once : destroyed.Nodup

namespace Lifetime

variable {R : Type} {made made' pointed pointed' : R → Prop} {destroyed : List R} {r : R}

theorem init (hmade : ∀ r, ¬ made r) (hpointed : ∀ r, ¬ pointed r) :
    Lifetime made pointed [] where
  pointed_iff := fun r => iff_of_false (hpointed r) fun h => hmade r h.1
  made := fun _ h => absurd h List.not_mem_nil
  once := List.nodup_nil

/-- The same objects are pointed to. -/
theorem move (h : Lifetime made pointed destroyed) (hpointed : ∀ r, pointed' r ↔ pointed r) :
    Lifetime made pointed' destroyed where
  pointed_iff := fun r => (hpointed r).trans (h.pointed_iff r)
  made := h.made
  once := h.once

/-- An object is made, with a pointer to it. -/
theorem make (h : Lifetime made pointed destroyed) (hr : ¬ made r)
    (hmade : ∀ x, made' x ↔ made x ∨ x = r) (hpointed : ∀ x, pointed' x ↔ pointed x ∨ x = r) :
    Lifetime made' pointed' destroyed where
  pointed_iff := by
    intro x
    rw [hpointed, hmade, h.pointed_iff]
    by_cases hx : x = r
    · subst hx
      exact iff_of_true (.inr rfl) ⟨.inr rfl, fun hd => hr (h.made x hd)⟩
    · simp [hx]
  made := fun x hx => (hmade x).2 (.inl (h.made x hx))
  once := h.once

/-- A pointer is given up that is not the last one. -/
theorem release (h : Lifetime made pointed destroyed)
    (hpointed : ∀ x, pointed x ↔ pointed' x ∨ x = r) (hr : pointed' r) :
    Lifetime made pointed' destroyed := by
  refine h.move fun x => ?_
  rw [hpointed]
  refine ⟨.inl, fun hx => hx.elim id ?_⟩
  rintro rfl
  exact hr

/-- The last pointer is given up. -/
theorem destroy (h : Lifetime made pointed destroyed)
    (hpointed : ∀ x, pointed x ↔ pointed' x ∨ x = r) (hr : ¬ pointed' r) :
    Lifetime made pointed' (destroyed ++ [r]) := by
  obtain ⟨hmade, halive⟩ := (h.pointed_iff r).1 ((hpointed r).2 (.inr rfl))
  refine ⟨fun x => ?_, fun x hx => ?_, ?_⟩
  · by_cases hx : x = r
    · subst hx
      exact iff_of_false hr fun hlive => hlive.2 (by simp)
    · have hsame := hpointed x
      rw [h.pointed_iff] at hsame
      simpa [hx] using hsame.symm
  · rcases List.mem_append.1 hx with hx | hx
    · exact h.made x hx
    · rwa [List.mem_singleton.1 hx]
  · refine List.nodup_append.2 ⟨h.once, List.nodup_singleton r, fun x hx y hy heq => ?_⟩
    rw [heq, List.mem_singleton.1 hy] at hx
    exact halive hx

end Lifetime

end ZephyrLog
