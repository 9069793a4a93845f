import Mathlib.Logic.Function.Basic

/-!
# Spin locks

Parties take locks by `test_and_set` of a flag and give them back by clearing it; a party holds at
most one lock at a time.  `Exclusive` says that a flag is set exactly while some party holds its
lock, and that no two do.  Taking a free lock and giving back a held one keep it.
-/

namespace ZephyrLog

/-- The flags of the locks and the lock that each party holds agree. -/
structure Exclusive {P L : Type} (flags : L → Bool) (holds : P → Option L) : Prop where
  held : ∀ l, flags l = true → ∃ p, holds p = some l
  flagged : ∀ p l, holds p = some l → flags l = true
  unique : ∀ p q l, holds p = some l → holds q = some l → p = q

namespace Exclusive

variable {P L : Type} {flags : L → Bool} {holds : P → Option L} {p q : P} {l : L}

theorem init : Exclusive (fun _ : L => false) fun _ : P => none where
  held := by simp
  flagged := by simp
  unique := by simp

/-- The flag is set exactly while the lock is held. -/
theorem flag_iff (h : Exclusive flags holds) (l : L) : flags l = true ↔ ∃ p, holds p = some l :=
  ⟨h.held l, fun ⟨p, hp⟩ => h.flagged p l hp⟩

theorem not_held (h : Exclusive flags holds) (hl : flags l = false) (p : P) :
    holds p ≠ some l := by
  intro hp
  rw [h.flagged p l hp] at hl
  cases hl

variable [DecidableEq P] [DecidableEq L]

/-- `test_and_set` has returned false. -/
theorem acquire (h : Exclusive flags holds) (hp : holds p = none) (hl : flags l = false) :
    Exclusive (Function.update flags l true) (Function.update holds p (some l)) where
  held := by
    intro m hm
    by_cases hml : m = l
    · subst hml
      exact ⟨p, Function.update_self ..⟩
    · rw [Function.update_of_ne hml] at hm
      obtain ⟨q, hq⟩ := h.held m hm
      refine ⟨q, ?_⟩
      rw [Function.update_of_ne]
      · exact hq
      · rintro rfl
        cases hp.symm.trans hq
  flagged := by
    intro q m hq
    by_cases hqp : q = p
    · subst hqp
      rw [Function.update_self] at hq
      cases hq
      exact Function.update_self ..
    · rw [Function.update_of_ne hqp] at hq
      have hml : m ≠ l := by
        rintro rfl
        exact h.not_held hl q hq
      rw [Function.update_of_ne hml]
      exact h.flagged q m hq
  unique := by
    have other (q : P) (hqp : q ≠ p) : Function.update holds p (some l) q ≠ some l := by
      rw [Function.update_of_ne hqp]
      exact h.not_held hl q
    intro q r m hq hr
    by_cases hqp : q = p <;> by_cases hrp : r = p
    · rw [hqp, hrp]
    · subst hqp
      rw [Function.update_self] at hq
      cases hq
      exact absurd hr (other r hrp)
    · subst hrp
      rw [Function.update_self] at hr
      cases hr
      exact absurd hq (other q hqp)
    · rw [Function.update_of_ne hqp] at hq
      rw [Function.update_of_ne hrp] at hr
      exact h.unique q r m hq hr

/-- The holder clears the flag. -/
theorem release (h : Exclusive flags holds) (hp : holds p = some l) :
    Exclusive (Function.update flags l false) (Function.update holds p none) where
  held := by
    intro m hm
    have hml : m ≠ l := by
      rintro rfl
      rw [Function.update_self] at hm
      cases hm
    rw [Function.update_of_ne hml] at hm
    obtain ⟨q, hq⟩ := h.held m hm
    refine ⟨q, ?_⟩
    rw [Function.update_of_ne]
    · exact hq
    · rintro rfl
      exact hml (Option.some.inj (hq.symm.trans hp))
  flagged := by
    intro q m hq
    have hqp : q ≠ p := by
      rintro rfl
      rw [Function.update_self] at hq
      cases hq
    rw [Function.update_of_ne hqp] at hq
    have hml : m ≠ l := by
      rintro rfl
      exact hqp (h.unique q p m hq hp)
    rw [Function.update_of_ne hml]
    exact h.flagged q m hq
  unique := by
    intro q r m hq hr
    have hne {q : P} (hq : Function.update holds p none q = some m) : q ≠ p := by
      rintro rfl
      rw [Function.update_self] at hq
      cases hq
    have hqp := hne hq
    have hrp := hne hr
    rw [Function.update_of_ne hqp] at hq
    rw [Function.update_of_ne hrp] at hr
    exact h.unique q r m hq hr

end Exclusive

/-! ## Threads and one more party -/

section Parties

variable {T L : Type}

/-- The locks held by the threads and by the party that `none` stands for. -/
def parties (threads : T → Option L) (other : Option L) : Option T → Option L
  | none => other
  | some t => threads t

variable [DecidableEq T]

theorem parties_update_thread (threads : T → Option L) (other : Option L) (t : T) (x : Option L) :
    parties (Function.update threads t x) other =
      Function.update (parties threads other) (some t) x := by
  funext p
  cases p with
  | none => simp [parties]
  | some u =>
    by_cases h : u = t
    · subst h
      simp [parties]
    · simp [parties, h]

theorem parties_update_other (threads : T → Option L) (other x : Option L) :
    parties threads x = Function.update (parties threads other) none x := by
  funext p
  cases p <;> simp [parties]

end Parties

end ZephyrLog
