import ZephyrLog.QueueBuffer.Steps
import Mathlib.Data.List.Nodup

/-!
# The calls of a run

`begun` numbers the calls of `push` in the order in which they begin, `claims` lists them in the
order in which they obtain a usable index.  A call enters `claims` once, and the calls of one thread
enter it in the order in which the thread makes them.
-/

namespace ZephyrLog

namespace QueueBuffer

variable {T α : Type}

/-- The push has not obtained an index below `Buffer::size` yet. -/
def Pc.Unclaimed : Pc → Prop
  | .claim | .spin => True
  | _ => False

/-- The calls and the claims agree. -/
structure History (s : System T α) : Prop where
  pushing : ∀ t p pc, s.producers t = .pushing p pc → p.thread = t ∧ p ∈ s.begun
  numbered : ∀ p ∈ s.begun, s.begun[p.number]? = some p
  begun : ∀ p ∈ s.claims, p ∈ s.begun
  unclaimed : ∀ t p pc, s.producers t = .pushing p pc → pc.Unclaimed →
    ∀ q ∈ s.claims, q.thread = t → q.number < p.number
  accounted : ∀ p ∈ s.begun, p ∈ s.claims ∨
    ∃ pc, s.producers p.thread = .pushing p pc ∧ pc.Unclaimed
  ordered : s.claims.Pairwise fun p q => p.thread = q.thread → p.number < q.number

theorem pushing_update [DecidableEq T] {s : System T α} {t t' : T} {q : Push T α} {pc' : Pc}
    {x : Producer T α} (h : Function.update s.producers t x t' = .pushing q pc') :
    (t' = t ∧ x = .pushing q pc') ∨ (t' ≠ t ∧ s.producers t' = .pushing q pc') := by
  by_cases ht : t' = t
  · subst ht
    exact .inl ⟨rfl, by rwa [Function.update_self] at h⟩
  · exact .inr ⟨ht, by rwa [Function.update_of_ne ht] at h⟩

namespace History

variable {s s' : System T α} {t : T} {p q : Push T α} {pc pc' : Pc}

theorem init : History (System.init : System T α) where
  pushing := by intro t p pc h; cases h
  numbered := by intro p h; cases h
  begun := by intro p h; cases h
  unclaimed := by intro t p pc h; cases h
  accounted := by intro p h; cases h
  ordered := .nil

theorem number_lt (h : History s) (hp : p ∈ s.begun) : p.number < s.begun.length :=
  (List.getElem?_eq_some_iff.1 (h.numbered p hp)).1

theorem nodup (h : History s) : s.claims.Nodup :=
  h.ordered.imp fun {p q} hpq heq => by
    subst heq
    exact Nat.lt_irrefl _ (hpq rfl)

/-- An operation that leaves the producers and the claims alone. -/
theorem congr (h : History s) (hproducers : s'.producers = s.producers)
    (hbegun : s'.begun = s.begun) (hclaims : s'.claims = s.claims) : History s' where
  pushing := by rw [hproducers, hbegun]; exact h.pushing
  numbered := by rw [hbegun]; exact h.numbered
  begun := by rw [hbegun, hclaims]; exact h.begun
  unclaimed := by rw [hproducers, hclaims]; exact h.unclaimed
  accounted := by rw [hbegun, hproducers, hclaims]; exact h.accounted
  ordered := by rw [hclaims]; exact h.ordered

theorem setQueue (h : History s) (q : QueueBuffer (Push T α)) : History (s.setQueue q) :=
  h.congr rfl rfl rfl

theorem advance (h : History s) : History s.advance := by
  unfold System.advance
  split
  · exact h.congr rfl rfl rfl
  · exact h.congr rfl rfl rfl

variable [DecidableEq T]

/-- A call goes on to another location, without obtaining an index. -/
theorem goto (h : History s) (ht : s.producers t = .pushing p pc)
    (hpc : pc'.Unclaimed ↔ pc.Unclaimed) : History (s.goto t p pc') where
  pushing := by
    intro t' q pc₁ ht'
    rcases pushing_update ht' with ⟨rfl, ⟨⟩⟩ | ⟨-, hold⟩
    · exact h.pushing _ _ _ ht
    · exact h.pushing _ _ _ hold
  numbered := h.numbered
  begun := h.begun
  unclaimed := by
    intro t' q pc₁ ht' hpc₁
    rcases pushing_update ht' with ⟨rfl, ⟨⟩⟩ | ⟨-, hold⟩
    · exact h.unclaimed _ _ _ ht (hpc.1 hpc₁)
    · exact h.unclaimed _ _ _ hold hpc₁
  accounted := by
    intro q hq
    apply (h.accounted q hq).imp_right
    rintro ⟨pc₁, hq₁, hpc₁⟩
    by_cases hqt : q.thread = t
    · rw [hqt, ht, Producer.pushing.injEq] at hq₁
      obtain ⟨rfl, rfl⟩ := hq₁
      refine ⟨pc', ?_, hpc.2 hpc₁⟩
      rw [hqt]
      exact Function.update_self _ _ _
    · exact ⟨pc₁, (Function.update_of_ne hqt _ _).trans hq₁, hpc₁⟩
  ordered := h.ordered

/-- A call that has obtained an index returns. -/
theorem leave (h : History s) (ht : s.producers t = .pushing p pc) (hpc : ¬ pc.Unclaimed) :
    History (s.leave t) where
  pushing := by
    intro t' q pc₁ ht'
    rcases pushing_update ht' with ⟨-, ⟨⟩⟩ | ⟨-, hold⟩
    exact h.pushing _ _ _ hold
  numbered := h.numbered
  begun := h.begun
  unclaimed := by
    intro t' q pc₁ ht'
    rcases pushing_update ht' with ⟨-, ⟨⟩⟩ | ⟨-, hold⟩
    exact h.unclaimed _ _ _ hold
  accounted := by
    intro q hq
    apply (h.accounted q hq).imp_right
    rintro ⟨pc₁, hq₁, hpc₁⟩
    by_cases hqt : q.thread = t
    · rw [hqt, ht, Producer.pushing.injEq] at hq₁
      exact absurd (hq₁.2 ▸ hpc₁) hpc
    · exact ⟨pc₁, (Function.update_of_ne hqt _ _).trans hq₁, hpc₁⟩
  ordered := h.ordered

theorem begin (h : History s) (ht : s.producers t = .idle) (a : α) :
    History ((s.begin ⟨t, s.begun.length, a⟩).goto t ⟨t, s.begun.length, a⟩ .claim) where
  pushing := by
    intro t' q pc₁ ht'
    rcases pushing_update ht' with ⟨rfl, ⟨⟩⟩ | ⟨-, hold⟩
    · exact ⟨rfl, List.mem_append_right _ List.mem_cons_self⟩
    · exact ⟨(h.pushing _ _ _ hold).1, List.mem_append_left _ (h.pushing _ _ _ hold).2⟩
  numbered := by
    intro q hq
    show (s.begun ++ _)[q.number]? = _
    rcases List.mem_append.1 hq with hq | hq
    · rw [List.getElem?_append_left (h.number_lt hq)]
      exact h.numbered q hq
    · rw [List.mem_singleton.1 hq]
      exact List.getElem?_concat_length
  begun := fun q hq => List.mem_append_left _ (h.begun q hq)
  unclaimed := by
    intro t' q pc₁ ht' hpc₁ r hr hrt
    rcases pushing_update ht' with ⟨rfl, ⟨⟩⟩ | ⟨-, hold⟩
    · exact h.number_lt (h.begun r hr)
    · exact h.unclaimed _ _ _ hold hpc₁ r hr hrt
  accounted := by
    intro q hq
    rcases List.mem_append.1 hq with hq | hq
    · apply (h.accounted q hq).imp_right
      rintro ⟨pc₁, hq₁, hpc₁⟩
      have hqt : q.thread ≠ t := fun hqt => by
        rw [hqt, ht] at hq₁
        cases hq₁
      exact ⟨pc₁, (Function.update_of_ne hqt _ _).trans hq₁, hpc₁⟩
    · rw [List.mem_singleton.1 hq]
      exact .inr ⟨.claim, Function.update_self _ _ _, trivial⟩
  ordered := h.ordered

theorem claim (h : History s) (ht : s.producers t = .pushing p .claim) (w : ℕ) :
    History ((s.afterClaim p).goto t p (.load w)) where
  pushing := by
    intro t' q pc₁ ht'
    rcases pushing_update ht' with ⟨rfl, ⟨⟩⟩ | ⟨-, hold⟩
    · exact h.pushing _ _ _ ht
    · exact h.pushing _ _ _ hold
  numbered := h.numbered
  begun := by
    intro q hq
    rcases List.mem_append.1 hq with hq | hq
    · exact h.begun q hq
    · rw [List.mem_singleton.1 hq]
      exact (h.pushing _ _ _ ht).2
  unclaimed := by
    intro t' q pc₁ ht' hpc₁ r hr hrt
    rcases pushing_update ht' with ⟨rfl, ⟨⟩⟩ | ⟨hne, hold⟩
    · exact absurd hpc₁ id
    · rcases List.mem_append.1 hr with hr | hr
      · exact h.unclaimed _ _ _ hold hpc₁ r hr hrt
      · rw [List.mem_singleton.1 hr, (h.pushing _ _ _ ht).1] at hrt
        exact absurd hrt.symm hne
  accounted := by
    intro q hq
    rcases h.accounted q hq with hc | ⟨pc₁, hq₁, hpc₁⟩
    · exact .inl (List.mem_append_left _ hc)
    · by_cases hqt : q.thread = t
      · rw [hqt, ht, Producer.pushing.injEq] at hq₁
        exact .inl (List.mem_append_right _ (hq₁.1 ▸ List.mem_cons_self))
      · exact .inr ⟨pc₁, (Function.update_of_ne hqt _ _).trans hq₁, hpc₁⟩
  ordered := by
    refine List.pairwise_append.2 ⟨h.ordered, List.pairwise_singleton _ _, ?_⟩
    intro q hq r hr hqr
    rw [List.mem_singleton.1 hr] at hqr ⊢
    exact h.unclaimed _ _ _ ht trivial q hq (hqr.trans (h.pushing _ _ _ ht).1)

/-- What every step keeps. -/
theorem step (h : History s) {l : Label T α} (hs : Step s l s') : History s' := by
  cases hs with
  | begin t a ht => exact h.begin ht a
  | claim t p ht hw => exact h.claim ht _
  | discard t p ht hw => exact (h.setQueue _).goto ht Iff.rfl
  | spin t => exact h
  | wait hc => exact h
  | retry t p ht hw => exact h.goto ht Iff.rfl
  | load t p w b ht hb => exact h.goto ht Iff.rfl
  | construct t p b w ht =>
    exact (h.congr rfl rfl rfl : History (s.afterConstruct p b w)).goto ht Iff.rfl
  | publish t p b w ht => exact (h.setQueue _).goto ht Iff.rfl
  | countLast t p b ht hfull => exact (h.setQueue _).goto ht Iff.rfl
  | count t p b ht hfull => exact (h.setQueue _).leave ht id
  | lock t p ht hflag => exact (h.setQueue _).goto ht Iff.rfl
  | alloc t p ht => exact (h.setQueue _).goto ht Iff.rfl
  | badAlloc t p ht => exact h.goto ht Iff.rfl
  | setWriteBuffer t p next ht => exact (h.setQueue _).goto ht Iff.rfl
  | enqueue t p next ht => exact (h.setQueue _).goto ht Iff.rfl
  | resetIndex t p ht => exact (h.congr rfl rfl rfl : History s.afterReset).goto ht Iff.rfl
  | unlock t p ht => exact (h.setQueue _).leave ht id
  | move b c hc hcell =>
    exact (h.congr rfl rfl rfl : History (s.afterMove b c)).advance
  | _ => exact h.congr rfl rfl rfl

end History

end QueueBuffer

end ZephyrLog
