import ZephyrLog.Lib.Counter
import ZephyrLog.RingBuffer.Calls

/-!
# What an overrun discards

On overrun the ring should drop old lines.  It can drop a new one: a producer delayed between its
claim and its store overwrites whatever newer pushes have put in its slot, and a store that
overtakes an earlier one in another slot discards a line newer than the one still waiting there.
`Fresh` records which pushes had returned when each push began, and `not_dropsNew` shows that these
two kinds of store are the only way to lose a line newer than one that is kept.
-/

namespace ZephyrLog

namespace RingBuffer

variable {α T : Type} {N : ℕ}

/-- The store of `t` would discard an unread line `y` while the ring still holds unread a line `x`
whose push had returned before the push of `y` began. -/
def DropsNew (s : System T α) (t : T) : Prop :=
  ∃ i e j x y c, s.producers t = .storing i e ∧
    s.ring.ring i = ⟨true, .line y⟩ ∧ j ≠ i ∧ s.ring.ring j = ⟨true, .line x⟩ ∧
    s.claims[y.ticket]? = some c ∧ x ∈ c.returned

/-- A store that replaces an unread line replaces one of an earlier claim, and no push claimed
between the two is still to store into a slot that holds an unread line. -/
def StoresInTurn (s : System T α) : Label T α → Prop
  | .store t => ∀ i e y, s.producers t = .storing i e → s.ring.ring i = ⟨true, .line y⟩ →
      y.ticket < e.ticket ∧ ∀ t' j z, s.producers t' = .storing j z → y.ticket < z.ticket →
        z.ticket < e.ticket → ¬ s.ring.Unread j
  | _ => True

/-- The pushes that had returned when a push began, against the tickets and the slots. -/
structure Fresh (N : ℕ) (s : System T α) : Prop where
  earlier : ∀ (y : ℕ) c, s.claims[y]? = some c → ∀ x ∈ c.returned, x ∈ s.stored ∧ x.ticket < y
  mono : ∀ (y z : ℕ) c d, y ≤ z → s.claims[y]? = some c → s.claims[z]? = some d →
    c.returned ⊆ d.returned
  latest : ∀ i x, s.ring.ring i = ⟨true, .line x⟩ → ∀ z ∈ s.stored, slotOf N z.ticket = i →
    ∀ c, s.claims[z.ticket]? = some c → x ∉ c.returned

namespace Fresh

variable {s : System T α}

theorem init (N : ℕ) : Fresh N (System.init N : System T α) where
  earlier := by intro y c h; cases h
  mono := by intro y z c d _ h; cases h
  latest := by intro i x h; cases h

theorem afterPop (h : Fresh N s) : Fresh N s.afterPop := by
  by_cases hu : s.ring.Unread s.ring.readSlot
  · rw [afterPop_of_unread hu]
    refine ⟨h.earlier, h.mono, fun i x hi => ?_⟩
    by_cases hne : i = s.ring.readSlot
    · simp [advance, hne] at hi
    · exact h.latest i x ((ring_advance_of_ne _ hne).symm.trans hi)
  · rwa [afterPop_of_not_unread hu]

variable [DecidableEq T]

theorem claims_afterClaim {s : System T α} {t : T} {a : α} {y : ℕ} {c : Claim T α}
    (h : (s.afterClaim t a).claims[y]? = some c) :
    (y < s.claims.length ∧ s.claims[y]? = some c) ∨
      (y = s.claims.length ∧ c = ⟨t, a, s.stored⟩) := by
  simp only [System.afterClaim] at h
  rcases lt_trichotomy y s.claims.length with hlt | rfl | hgt
  · rw [List.getElem?_append_left hlt] at h
    exact .inl ⟨hlt, h⟩
  · rw [List.getElem?_append_right le_rfl, Nat.sub_self] at h
    exact .inr ⟨rfl, (Option.some.inj h).symm⟩
  · rw [List.getElem?_eq_none (by simp; omega)] at h
    cases h

theorem afterClaim (h : Fresh N s) (ht : Tickets N s) (t : T) (a : α) :
    Fresh N (s.afterClaim t a) where
  earlier := by
    intro y c hc x hx
    rcases claims_afterClaim hc with ⟨-, hold⟩ | ⟨rfl, rfl⟩
    · exact h.earlier y c hold x hx
    · exact ⟨hx, ht.ticket_lt_of_mem hx⟩
  mono := by
    intro y z c d hyz hc hd
    rcases claims_afterClaim hd with ⟨hz, hd⟩ | ⟨rfl, rfl⟩
    · rcases claims_afterClaim hc with ⟨-, hc⟩ | ⟨rfl, -⟩
      · exact h.mono y z c d hyz hc hd
      · exact absurd hyz (by omega)
    · rcases claims_afterClaim hc with ⟨-, hc⟩ | ⟨-, rfl⟩
      · exact fun x hx => (h.earlier y c hc x hx).1
      · exact List.Subset.refl _
  latest := by
    intro i x hi z hz hslot c hc
    rcases claims_afterClaim hc with ⟨-, hc⟩ | ⟨hlen, -⟩
    · exact h.latest i x hi z hz hslot c hc
    · exact absurd (ht.ticket_lt_of_mem hz) (by omega)

theorem afterStore (h : Fresh N s) (ht : Tickets N s) {t : T} {i : ℕ} {e : Entry α}
    (hst : s.producers t = .storing i e) : Fresh N (s.afterStore t i e) where
  earlier := by
    intro y c hc x hx
    obtain ⟨hmem, hlt⟩ := h.earlier y c hc x hx
    exact ⟨List.mem_append_left _ hmem, hlt⟩
  mono := h.mono
  latest := by
    intro j x hj z hz hslot c hc
    by_cases hji : j = i
    · -- the slot just stored into holds `e`, which no push has seen returned
      subst hji
      obtain ⟨-, hnew, -⟩ := ht.storing t j e hst
      rw [System.afterStore, ring_store_self, Item.mk.injEq] at hj
      obtain rfl := Cell.line.inj hj.2
      exact fun hmem => hnew (h.earlier _ c hc _ hmem).1
    · rw [System.afterStore, ring_store_of_ne _ _ hji] at hj
      rcases List.mem_append.1 hz with hz | hz
      · exact h.latest j x hj z hz hslot c hc
      · rw [List.mem_singleton.1 hz, ← (ht.storing t i e hst).1] at hslot
        exact absurd hslot.symm hji

theorem step (h : Fresh N s) (ht : Tickets N s) {l : Label T α} {s' : System T α}
    (hs : s.step l = some s') : Fresh N s' := by
  rcases step_cases hs with ⟨t, a, -, -, rfl⟩ | ⟨t, i, e, -, hst, rfl⟩ | ⟨-, rfl⟩
  · exact h.afterClaim ht t a
  · exact h.afterStore ht hst
  · exact h.afterPop

theorem of_reachable {guard : System T α → Label T α → Prop}
    (h : (machine T α N).Reachable guard s) : Fresh N s := by
  have both : Tickets N s ∧ Fresh N s := by
    refine h.invariant (P := fun s => Tickets N s ∧ Fresh N s)
      ⟨.init N, .init N⟩ fun _ _ _ hinv _ hstep => ?_
    exact ⟨hinv.1.step hstep, hinv.2.step hinv.1 hstep⟩
  exact both.2

end Fresh

/-- A store made in turn drops no line that is newer than one the ring keeps. -/
theorem not_dropsNew_of_storesInTurn {s : System T α} {k : ℕ} (ht : Tickets (2 ^ k) s)
    (hf : Fresh (2 ^ k) s) {t : T} (hturn : StoresInTurn s (.store t)) : ¬ DropsNew s t := by
  rintro ⟨i, e, j, x, y, c, hst, hi, hne, hj, hc, hx⟩
  obtain ⟨hye, hturn⟩ := hturn i e y hst hi
  obtain ⟨M, hM, hslot⟩ := exists_counter_modulus 32 k
  change ∀ c, slotOf (2 ^ k) c = c % M at hslot
  have hui : s.ring.Unread i := by simp [Unread, hi]
  have huj : s.ring.Unread j := by simp [Unread, hj]
  have slot_of {l : ℕ} {f : Entry α} (hl : s.ring.ring l = ⟨true, .line f⟩) :
      l = f.ticket % M := by
    obtain ⟨g, -, hg, hgl⟩ := ht.unread l (by simp [Unread, hl])
    rw [hl] at hg
    rw [hgl, hslot, Cell.line.inj hg]
  obtain ⟨hie, -⟩ := ht.storing t i e hst
  have hxy : x.ticket < y.ticket := (hf.earlier _ c hc x hx).2
  have hyi := slot_of hi
  have hxj := slot_of hj
  have hei : i = e.ticket % M := hie.trans (hslot _)
  -- the first claim after `y` that gets the slot of `x`
  obtain ⟨z, hyz, hzM, hz⟩ := exists_mod_eq_in_window hM x.ticket y.ticket
  have hne' : z ≠ y.ticket := fun h => hne (by rw [hxj, hyi, ← h, hz])
  -- `e` claimed the slot of `y` again, so at least `M` claims later
  have heM : y.ticket + M ≤ e.ticket := by
    by_contra hlt
    exact absurd (eq_of_mod_eq_of_window le_rfl (by omega) hye.le (by omega) (hyi.symm.trans hei))
      hye.ne
  have hze : z < e.ticket := by omega
  have hzlen : z < s.claims.length := hze.trans (ht.ticket_lt_of_storing hst)
  have hzj : slotOf (2 ^ k) z = j := by rw [hslot, hz, hxj]
  rcases ht.accounted z hzlen with ⟨t', j', f, hf', rfl⟩ | ⟨f, hmem, rfl⟩
  · obtain ⟨hj', -⟩ := ht.storing t' j' f hf'
    apply hturn t' j' f hf' (by omega) hze
    rwa [hj', hzj]
  · obtain ⟨d, hd, -⟩ := ht.stored f hmem
    exact hf.latest j x hj f hmem hzj d hd (hf.mono _ _ c d (by omega) hc hd hx)

/-- In every run whose stores are all made in turn, no store drops a line newer than one the ring
keeps. -/
theorem not_dropsNew [DecidableEq T] {k : ℕ} {s : System T α}
    (h : (machine T α (2 ^ k)).Reachable StoresInTurn s) {t : T}
    (hturn : StoresInTurn s (.store t)) : ¬ DropsNew s t :=
  not_dropsNew_of_storesInTurn (.of_reachable h) (.of_reachable h) hturn

/-- In a ring of two slots the third line replaces the first in turn, while the second stays. -/
theorem not_dropsNew_lap : ∃ s : System Bool ℕ,
    s.producers true = .storing 0 ⟨2, 9⟩ ∧ s.ring.ring 0 = ⟨true, .line ⟨0, 7⟩⟩ ∧
      s.ring.ring 1 = ⟨true, .line ⟨1, 8⟩⟩ ∧ ¬ DropsNew s true := by
  let s₁ := ((System.init (2 ^ 1) : System Bool ℕ).afterClaim false 7).afterClaim true 8
  let s₂ := s₁.afterStore true 1 ⟨1, 8⟩
  let s₃ := s₂.afterStore false 0 ⟨0, 7⟩
  let s := s₃.afterClaim true 9
  have hclaims : (machine Bool ℕ (2 ^ 1)).Reachable StoresInTurn s₁ :=
    .tail (.claim true 8) (.tail (.claim false 7) .refl trivial rfl) trivial rfl
  have hstores : (machine Bool ℕ (2 ^ 1)).Reachable StoresInTurn s₃ := by
    refine .tail (.store false) (.tail (.store true) hclaims ?_ rfl) ?_ rfl
    · intro i e y hst hi
      cases hst
      cases hi
    · intro i e y hst hi
      cases hst
      cases hi
  have h : (machine Bool ℕ (2 ^ 1)).Reachable StoresInTurn s :=
    .tail (.claim true 9) hstores trivial rfl
  have hproducer : s.producers true = .storing 0 ⟨2, 9⟩ := by decide +kernel
  have hfirst : s.ring.ring 0 = ⟨true, .line ⟨0, 7⟩⟩ := rfl
  refine ⟨s, hproducer, hfirst, rfl, not_dropsNew h ?_⟩
  intro i e y hst hi
  cases hproducer.symm.trans hst
  cases hfirst.symm.trans hi
  refine ⟨by decide, fun t' j z hz hyz hze => ?_⟩
  cases t' with
  | false => cases hz
  | true =>
    cases hproducer.symm.trans hz
    exact absurd hze (lt_irrefl _)

/-- A producer delayed for one lap of a ring of two slots overwrites the newest line while an older
one stays. -/
theorem exists_dropsNew : ¬ ∀ (k : ℕ) (s : System Bool ℕ),
    (machine Bool ℕ (2 ^ k)).Reachable Machine.anyStep s → ∀ t, ¬ DropsNew s t := by
  intro hall
  have h := hall 1 _ (.of_exec [.claim false 0, .claim true 1, .store true, .claim true 2,
    .store true] (fun _ _ _ => trivial) rfl) false
  exact h ⟨0, ⟨0, 0⟩, 1, ⟨1, 1⟩, ⟨2, 2⟩, ⟨true, 2, [⟨1, 1⟩]⟩, rfl, rfl, by decide, rfl, rfl,
    by decide⟩

end RingBuffer

end ZephyrLog
