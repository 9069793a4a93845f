import Mathlib.Data.List.Basic
import Mathlib.Logic.Function.Basic

/-!
# Writes to a keyed store

A store gives every key a value, and an operation writes one value under one key or writes nothing.
What a sequence of operations leaves under a key depends on the operations on that key alone, so the
operations may be moved past each other as long as those on one key keep their order.
-/

namespace ZephyrLog

namespace Keyed

variable {ι κ α : Type} [DecidableEq κ] (write : ι → Option (κ × α))

/-- The store after the operation `i`. -/
def put (store : κ → α) (i : ι) : κ → α :=
  match write i with
  | none => store
  | some (k, v) => Function.update store k v

/-- The operation writes under the key `k`. -/
def onKey (k : κ) (i : ι) : Bool := (write i).map Prod.fst = some k

variable {write} {store store' : κ → α} {i : ι} {k : κ} {L L' : List ι}

theorem put_apply_of_onKey (h : onKey write k i) (heq : store k = store' k) :
    put write store i k = put write store' i k := by
  unfold put
  cases hw : write i with
  | none => exact heq
  | some kv => simp_all [onKey]

theorem put_apply_of_not_onKey (h : ¬ onKey write k i) : put write store i k = store k := by
  unfold put
  cases hw : write i with
  | none => rfl
  | some kv =>
    have hne : k ≠ kv.1 := by
      rintro rfl
      simp [onKey, hw] at h
    exact Function.update_of_ne hne _ _

theorem put_eq {v : α} (h : put write store i k = v) :
    store k = v ∨ write i = some (k, v) := by
  by_cases hk : onKey write k i
  · obtain ⟨⟨k', v'⟩, hw, hk'⟩ := Option.map_eq_some_iff.1 (of_decide_eq_true hk)
    obtain rfl : k' = k := hk'
    rw [put, hw] at h
    simp only [Function.update_self] at h
    exact .inr (h ▸ hw)
  · exact .inl ((put_apply_of_not_onKey hk).symm.trans h)

/-- A value in the store was there at first or was written. -/
theorem foldl_put_eq {v : α} (h : L.foldl (put write) store k = v) :
    store k = v ∨ ∃ i ∈ L, write i = some (k, v) := by
  induction L generalizing store with
  | nil => exact .inl h
  | cons i L ih =>
    obtain hput | ⟨j, hj, hw⟩ := ih h
    · obtain hstore | hw := put_eq hput
      · exact .inl hstore
      · exact .inr ⟨i, List.mem_cons_self, hw⟩
    · exact .inr ⟨j, List.mem_cons_of_mem i hj, hw⟩

/-- Only the operations on a key count for its value. -/
theorem foldl_put_filter (heq : store k = store' k) :
    L.foldl (put write) store k = (L.filter (onKey write k)).foldl (put write) store' k := by
  induction L generalizing store store' with
  | nil => exact heq
  | cons i L ih =>
    by_cases hi : onKey write k i
    · rw [List.filter_cons_of_pos hi]
      exact ih (put_apply_of_onKey hi heq)
    · rw [List.filter_cons_of_neg hi]
      apply ih
      rw [put_apply_of_not_onKey hi, heq]

/-- Two sequences with the same operations on every key leave the same store. -/
theorem foldl_put_congr
    (h : ∀ k, L.filter (onKey write k) = L'.filter (onKey write k)) :
    L.foldl (put write) store = L'.foldl (put write) store := by
  funext k
  have hkey (L : List ι) : L.foldl (put write) store k =
      (L.filter (onKey write k)).foldl (put write) store k := foldl_put_filter rfl
  rw [hkey L, hkey L', h k]

/-- The operations on one key may all be put last. -/
theorem foldl_put_last (k : κ) :
    ((L.filter fun i => !onKey write k i) ++ L.filter (onKey write k)).foldl (put write) store =
      L.foldl (put write) store := by
  apply foldl_put_congr
  intro k'
  rw [List.filter_append, List.filter_filter, List.filter_filter]
  by_cases hk : k' = k
  · subst hk
    simp
  · have hdisjoint (i : ι) : onKey write k' i = true → onKey write k i = false := by
      unfold onKey
      cases write i with
      | none => simp
      | some kv =>
        simp only [Option.map_some, Option.some.injEq, decide_eq_true_eq, decide_eq_false_iff_not]
        rintro rfl
        exact hk
    have hnone : L.filter (fun i => onKey write k' i && onKey write k i) = [] := by
      rw [List.filter_eq_nil_iff]
      intro i _ hand
      rw [Bool.and_eq_true] at hand
      rw [hdisjoint i hand.1] at hand
      cases hand.2
    have hall : L.filter (fun i => onKey write k' i && !onKey write k i) =
        L.filter (onKey write k') := by
      apply List.filter_congr
      intro i _
      cases hi : onKey write k' i with
      | false => rfl
      | true => rw [hdisjoint i hi]; rfl
    rw [hnone, hall, List.append_nil]

end Keyed

end ZephyrLog
