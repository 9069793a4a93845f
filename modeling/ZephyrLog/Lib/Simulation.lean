import ZephyrLog.Lib.Transition

/-!
# Refinement between two machines

A machine refines another one if each of its steps is answered by one step of the other or by none,
so that a relation between the states is kept.  Then the answers to a whole run are a run of the
other machine, which ends in a related state (`Simulates.trace`).
-/

namespace ZephyrLog

namespace Machine

variable {State Label State' Label' : Type}

/-- The machine goes from `a` to `a'` by the step, if there is one. -/
def Answers (N : Machine State' Label') (guard : State' → Label' → Prop) (a : State') :
    Option Label' → State' → Prop
  | none, a' => a' = a
  | some l, a' => guard a l ∧ N.step a l = some a'

/-- Every guarded step of `M` is answered by `N` with the step `answer`, if it is one. -/
structure Simulates (M : Machine State Label) (guard : State → Label → Prop)
    (N : Machine State' Label') (guard' : State' → Label' → Prop)
    (answer : State → Label → Option Label') (related : State → State' → Prop) : Prop where
  init : related M.init N.init
  step : ∀ s l s' a, related s a → guard s l → M.step s l = some s' →
    ∃ a', N.Answers guard' a (answer s l) a' ∧ related s' a'

variable {M : Machine State Label} {guard : State → Label → Prop} {N : Machine State' Label'}
  {guard' : State' → Label' → Prop} {answer : State → Label → Option Label'}
  {related : State → State' → Prop} {s : State} {a a' : State'} {es : List Label'}

theorem Answers.exec {o : Option Label'} (h : N.Answers guard' a o a') :
    N.exec a o.toList = some a' := by
  cases o with
  | none => exact congrArg some h.symm
  | some l =>
    obtain ⟨-, h⟩ := h
    show (N.step a l).bind _ = _
    rw [h]
    rfl

theorem Answers.reaches {o : Option Label'} (h : N.Answers guard' a o a') :
    N.Reaches guard' a a' := by
  cases o with
  | none =>
    obtain rfl : a' = a := h
    exact .refl
  | some l => exact .single l h.1 h.2

/-- The answers to a run are a run of the other machine. -/
theorem Simulates.trace (h : M.Simulates guard N guard' answer related)
    (hs : (M.record fun s l => (answer s l).toList).Reachable (fun x l => guard x.1 l) (s, es)) :
    ∃ a, N.exec N.init es = some a ∧ N.Reachable guard' a ∧ related s a := by
  generalize hx : (s, es) = x at hs
  induction hs generalizing s es with
  | refl =>
    cases hx
    exact ⟨N.init, rfl, .refl, h.init⟩
  | @tail y z l hreach hg hstep ih =>
    subst hx
    obtain ⟨a, hexec, hreach', hrel⟩ := @ih y.1 y.2 rfl
    obtain ⟨s', hs', heq⟩ := Option.map_eq_some_iff.1 hstep
    cases heq
    obtain ⟨a', ha', hrel'⟩ := h.step y.1 l s a hrel hg hs'
    refine ⟨a', ?_, hreach'.trans ha'.reaches, hrel'⟩
    rw [exec_append, hexec]
    exact ha'.exec

/-- If every step is answered by the one with the same label, every run is one of both. -/
theorem Simulates.exec {N : Machine State' Label} {guard' : State' → Label → Prop} {s s' : State}
    {ls : List Label} (h : M.Simulates anyStep N guard' (fun _ l => some l) related)
    (hrel : related s a) (hs : M.exec s ls = some s') :
    ∃ a', N.exec a ls = some a' ∧ related s' a' := by
  induction ls generalizing s a with
  | nil =>
    cases hs
    exact ⟨a, rfl, hrel⟩
  | cons l ls ih =>
    obtain ⟨t, ht, hs⟩ := Option.bind_eq_some_iff.1 hs
    obtain ⟨b, ⟨-, hb⟩, hrel'⟩ := h.step s l t a hrel trivial ht
    obtain ⟨a', ha', hrel''⟩ := ih hrel' hs
    refine ⟨a', ?_, hrel''⟩
    rw [exec_cons, hb]
    exact ha'

/-- Refinements compose. -/
theorem Simulates.comp {State'' Label'' : Type} {O : Machine State'' Label''}
    {guard'' : State'' → Label'' → Prop} {answer' : State' → Label' → Option Label''}
    {answer'' : State → Label → Option Label''} {related' : State' → State'' → Prop}
    (h : M.Simulates guard N guard' answer related)
    (h' : N.Simulates guard' O guard'' answer' related')
    (hanswer : ∀ s a l, related s a → answer'' s l = (answer s l).bind (answer' a)) :
    M.Simulates guard O guard'' answer'' fun s o => ∃ a, related s a ∧ related' a o where
  init := ⟨N.init, h.init, h'.init⟩
  step := by
    rintro s l s' o ⟨a, hrel, hrel'⟩ hg hs
    obtain ⟨a', ha', hnew⟩ := h.step s l s' a hrel hg hs
    rw [hanswer s a l hrel]
    cases hl : answer s l with
    | none =>
      rw [hl] at ha'
      obtain rfl : a' = a := ha'
      exact ⟨o, rfl, a', hnew, hrel'⟩
    | some l' =>
      rw [hl] at ha'
      obtain ⟨o', ho', hnew'⟩ := h'.step a l' a' o hrel' ha'.1 ha'.2
      exact ⟨o', ho', a', hnew, hnew'⟩

/-- Every state reached is related to a state that the other machine reaches. -/
theorem Simulates.reaches (h : M.Simulates guard N guard' answer related)
    (hs : M.Reachable guard s) : ∃ a, N.Reachable guard' a ∧ related s a := by
  obtain ⟨es, hes⟩ := hs.record fun s l => (answer s l).toList
  obtain ⟨a, -, ha⟩ := h.trace hes
  exact ⟨a, ha⟩

end Machine

end ZephyrLog
