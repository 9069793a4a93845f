import Mathlib.Data.Finset.Basic
import Mathlib.Logic.Function.Basic

/-!
# Shared mutexes

A shared mutex is held by one party exclusively or by any number of parties shared.  `Agrees` says
that the mutex knows the mode in which each party holds it; taking it and giving it back keep this.
While a party holds it exclusively no other party holds it at all.
-/

namespace ZephyrLog

/-- `std::shared_mutex`. -/
structure SharedMutex (P : Type) where
  owner : Option P
  sharers : Finset P

namespace SharedMutex

/-- The two ways to hold the mutex. -/
inductive Mode where
  | exclusive
  | shared
  deriving DecidableEq

variable {P : Type}

/-- Nobody holds the mutex. -/
def free : SharedMutex P := { owner := none, sharers := ∅ }

/-- `unlock()` -/
def unlock (m : SharedMutex P) : SharedMutex P := { m with owner := none }

variable [DecidableEq P]

/-- `lock()`, when it does not have to wait. -/
def lock (m : SharedMutex P) (p : P) : Option (SharedMutex P) :=
  if m.owner = none ∧ m.sharers = ∅ then some { m with owner := some p } else none

/-- `lock_shared()`, when it does not have to wait. -/
def lockShared (m : SharedMutex P) (p : P) : Option (SharedMutex P) :=
  if m.owner = none then some { m with sharers := insert p m.sharers } else none

/-- `unlock_shared()` -/
def unlockShared (m : SharedMutex P) (p : P) : SharedMutex P :=
  { m with sharers := m.sharers.erase p }

/-- The mutex is held in the modes that the parties have it in. -/
structure Agrees (m : SharedMutex P) (mode : P → Option Mode) : Prop where
  owner : ∀ p, m.owner = some p ↔ mode p = some .exclusive
  sharers : ∀ p, p ∈ m.sharers ↔ mode p = some .shared
  excluded : ∀ p, m.owner = some p → m.sharers = ∅

namespace Agrees

variable {m m' : SharedMutex P} {mode : P → Option Mode} {p q : P}

omit [DecidableEq P] in
theorem free : Agrees (SharedMutex.free : SharedMutex P) fun _ => none where
  owner := by simp [SharedMutex.free]
  sharers := by simp [SharedMutex.free]
  excluded := by simp [SharedMutex.free]

omit [DecidableEq P] in
/-- A party that holds the mutex exclusively is the only one that holds it. -/
theorem eq_of_exclusive (h : Agrees m mode) (hp : mode p = some .exclusive)
    (hq : mode q ≠ none) : q = p := by
  have howner := (h.owner p).2 hp
  cases hmode : mode q with
  | none => exact absurd hmode hq
  | some md =>
    cases md with
    | exclusive => exact Option.some.inj (((h.owner q).2 hmode).symm.trans howner)
    | shared =>
      have hmem := (h.sharers q).2 hmode
      rw [h.excluded p howner] at hmem
      cases hmem

theorem update_of_ne {md : Option Mode} (hq : q ≠ p) :
    Function.update mode p md q = mode q := Function.update_of_ne hq ..

theorem lock (h : Agrees m mode) (hm : m.lock p = some m') :
    Agrees m' (Function.update mode p (some .exclusive)) := by
  obtain ⟨⟨howner, hsharers⟩, rfl⟩ : (m.owner = none ∧ m.sharers = ∅) ∧
      { m with owner := some p } = m' := by simpa [SharedMutex.lock] using hm
  have hnone (q : P) : mode q = none := by
    cases hmode : mode q with
    | none => rfl
    | some md =>
      cases md with
      | exclusive => cases howner.symm.trans ((h.owner q).2 hmode)
      | shared =>
        have hmem := (h.sharers q).2 hmode
        rw [hsharers] at hmem
        cases hmem
  refine ⟨fun q => ?_, fun q => ?_, fun _ _ => hsharers⟩ <;> by_cases hq : q = p
  · simp [hq]
  · simp [hq, hnone, Ne.symm hq]
  · simp [hq, hsharers]
  · simp [hq, hnone, hsharers]

theorem lockShared (h : Agrees m mode) (hm : m.lockShared p = some m') :
    Agrees m' (Function.update mode p (some .shared)) := by
  obtain ⟨howner, rfl⟩ : m.owner = none ∧ { m with sharers := insert p m.sharers } = m' := by
    simpa [SharedMutex.lockShared] using hm
  refine ⟨fun q => ?_, fun q => ?_, fun q hq => ?_⟩
  · by_cases hq : q = p
    · simp [hq, howner]
    · rw [update_of_ne hq]
      exact h.owner q
  · by_cases hq : q = p
    · simp [hq]
    · rw [update_of_ne hq, Finset.mem_insert, or_iff_right hq]
      exact h.sharers q
  · cases howner.symm.trans hq

theorem unlock (h : Agrees m mode) (hp : mode p = some .exclusive) :
    Agrees m.unlock (Function.update mode p none) := by
  have howner := (h.owner p).2 hp
  have hnone (q : P) (hq : q ≠ p) : mode q = none := by
    by_contra hmode
    exact hq (h.eq_of_exclusive hp hmode)
  refine ⟨fun q => ?_, fun q => ?_, fun q hq => by cases hq⟩ <;> by_cases hq : q = p
  · simp [hq, SharedMutex.unlock]
  · simp [hq, hnone q hq, SharedMutex.unlock]
  · simp [hq, SharedMutex.unlock, h.excluded p howner]
  · simp [hq, hnone q hq, SharedMutex.unlock, h.excluded p howner]

theorem unlockShared (h : Agrees m mode) (hp : mode p = some .shared) :
    Agrees (m.unlockShared p) (Function.update mode p none) := by
  refine ⟨fun q => ?_, fun q => ?_, fun q hq => ?_⟩
  · by_cases hq : q = p
    · subst hq
      have hne : m.owner ≠ some q := fun howner => by
        cases ((h.owner q).1 howner).symm.trans hp
      simpa [SharedMutex.unlockShared] using hne
    · rw [update_of_ne hq]
      exact h.owner q
  · by_cases hq : q = p
    · simp [hq, SharedMutex.unlockShared]
    · rw [update_of_ne hq, SharedMutex.unlockShared, Finset.mem_erase, and_iff_right hq]
      exact h.sharers q
  · rw [SharedMutex.unlockShared, h.excluded q hq]
    rfl

/-- A party goes on without touching the mutex. -/
theorem keep (h : Agrees m mode) {md : Option Mode} (hmd : md = mode p) :
    Agrees m (Function.update mode p md) := by
  rwa [hmd, Function.update_eq_self]

end Agrees

end SharedMutex

end ZephyrLog
