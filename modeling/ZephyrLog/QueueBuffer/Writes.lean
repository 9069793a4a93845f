import ZephyrLog.QueueBuffer.Protocol

/-!
# The constructions of items

`Writes` says which slots have been constructed: those whose flag is set and those whose flag a push
is about to set, each once and by the push that claimed it.
-/

namespace ZephyrLog

namespace QueueBuffer

variable {T α : Type}

/-- The push that has constructed its item and is to set the flag, with the index of the slot. -/
def Producer.constructed : Producer T α → Option (Push T α × ℕ)
  | .pushing p (.publish _ w) => some (p, w)
  | _ => none

/-- The constructions agree with the flags and the claims. -/
structure Writes (s : System T α) : Prop where
  nodup : (s.writes.map Write.slot).Nodup
  owner : ∀ w ∈ s.writes, w.index < Buffer.size ∧
    s.claims[position w.buffer w.index]? = some w.push ∧ (s.Written w.buffer w.index ∨
      w.buffer = s.switches ∧ ∃ t, (s.producers t).constructed = some (w.push, w.index))
  written : ∀ b i, i < Buffer.size → s.Written b i → ∃ w ∈ s.writes, w.slot = (b, i)
  constructed : ∀ t p i, (s.producers t).constructed = some (p, i) →
    ⟨p, s.switches, i⟩ ∈ s.writes

theorem pending_of_constructed {x : Producer T α} {p : Push T α} {i : ℕ}
    (h : x.constructed = some (p, i)) : x.pending = some (p, i, some (.line p)) := by
  cases x with
  | idle => cases h
  | pushing q pc =>
    cases pc <;> cases h
    rfl

namespace Writes

variable {s s' : System T α} {t : T} {p : Push T α} {pc pc' : Pc}

theorem init : Writes (System.init : System T α) where
  nodup := .nil
  owner := by intro w h; cases h
  written := fun b i hi hw => absurd hw (not_written_init b i)
  constructed := by intro t p i h; cases h

/-- An operation that neither constructs an item nor sets a flag. -/
theorem congr (h : Writes s) (hwrites : s'.writes = s.writes) (hclaims : s.claims <+: s'.claims)
    (hswitches : s'.switches = s.switches)
    (hwritten : ∀ b i, i < Buffer.size → (s'.Written b i ↔ s.Written b i))
    (hconstructed : ∀ t, (s'.producers t).constructed = (s.producers t).constructed) :
    Writes s' where
  nodup := by rw [hwrites]; exact h.nodup
  owner := by
    intro w hw
    rw [hwrites] at hw
    obtain ⟨hi, hc, hor⟩ := h.owner w hw
    simp only [hwritten _ _ hi, hswitches, hconstructed]
    obtain ⟨rest, hrest⟩ := hclaims
    refine ⟨hi, ?_, hor⟩
    rw [← hrest, List.getElem?_append_left (List.getElem?_eq_some_iff.1 hc).1, hc]
  written := by
    intro b i hi hw
    rw [hwrites]
    exact h.written b i hi ((hwritten b i hi).1 hw)
  constructed := by
    intro t p i ht
    rw [hconstructed] at ht
    rw [hwrites, hswitches]
    exact h.constructed t p i ht

variable [DecidableEq T]

theorem goto (h : Writes s) (ht : s.producers t = .pushing p pc)
    (hpc : (Producer.pushing p pc').constructed = (Producer.pushing p pc).constructed) :
    Writes (s.goto t p pc') :=
  h.congr rfl (List.prefix_refl _) rfl (fun _ _ _ => Iff.rfl)
    (view_update Producer.constructed (by rw [hpc, ht]))

theorem leave (h : Writes s) (ht : s.producers t = .pushing p pc)
    (hpc : (Producer.pushing p pc).constructed = none) : Writes (s.leave t) :=
  h.congr rfl (List.prefix_refl _) rfl (fun _ _ _ => Iff.rfl)
    (view_update Producer.constructed (by rw [ht, hpc]; rfl))

omit [DecidableEq T] in
theorem setQueue (h : Writes s) (q : QueueBuffer (Push T α)) (hheap : q.heap = s.queue.heap) :
    Writes (s.setQueue q) :=
  h.congr rfl (List.prefix_refl _) rfl (fun b i _ => by
    show (q.heap b).isWritten i ↔ _
    rw [hheap]
    rfl) fun _ => rfl

theorem construct [Fintype T] (h : Writes s) (hp : Protocol s) {b w : ℕ}
    (ht : s.producers t = .pushing p (.construct b w)) :
    Writes ((s.afterConstruct p b w).goto t p (.publish b w)) := by
  obtain ⟨rfl, hw⟩ := hp.switching.pcs t p _ ht
  have hpt : (s.producers t).pending = some (p, w, none) := by rw [ht]; rfl
  obtain ⟨-, hclaim, hnw, -⟩ := hp.slots.pending t p w none hpt
  have hwritten := written_afterConstruct s p s.switches w
  have hother {t' : T} {q : Push T α} {i : ℕ}
      (hc : (s.producers t').constructed = some (q, i)) : t' ≠ t ∧ i ≠ w := by
    have hne : t' ≠ t := by
      rintro rfl
      rw [ht] at hc
      cases hc
    refine ⟨hne, ?_⟩
    rintro rfl
    exact hne (hp.slots.pending_inj hp.history (pending_of_constructed hc) hpt)
  have hfresh : (s.switches, w) ∉ s.writes.map Write.slot := by
    intro hmem
    obtain ⟨v, hv, hslot⟩ := List.mem_map.1 hmem
    obtain ⟨hb, hi⟩ := Prod.mk.inj hslot
    obtain ⟨-, -, hor⟩ := h.owner v hv
    rw [hb, hi] at hor
    rcases hor with hiw | ⟨-, t', hc⟩
    · exact hnw hiw
    · exact (hother hc).2 rfl
  exact
    { nodup := by
        show ((s.writes ++ [(⟨p, s.switches, w⟩ : Write T α)]).map Write.slot).Nodup
        rw [List.map_append]
        refine List.nodup_append.2 ⟨h.nodup, List.nodup_singleton _, ?_⟩
        rintro x hx y hy rfl
        rw [List.mem_singleton.1 hy] at hx
        exact hfresh hx
      owner := by
        intro v hv
        rcases List.mem_append.1 hv with hv | hv
        · obtain ⟨hi, hc, hor⟩ := h.owner v hv
          refine ⟨hi, hc, hor.imp (hwritten _ _).2 ?_⟩
          rintro ⟨hb, t', hc'⟩
          refine ⟨hb, t', ?_⟩
          rwa [view_goto Producer.constructed, if_neg (hother hc').1]
        · rw [List.mem_singleton.1 hv]
          refine ⟨hw, hclaim, .inr ⟨rfl, t, ?_⟩⟩
          rw [view_goto Producer.constructed, if_pos rfl]
          rfl
      written := by
        intro a i hi hiw
        obtain ⟨v, hv, hslot⟩ := h.written a i hi ((hwritten a i).1 hiw)
        exact ⟨v, List.mem_append_left _ hv, hslot⟩
      constructed := by
        intro t' q i hc
        rw [view_goto Producer.constructed] at hc
        by_cases htt : t' = t
        · rw [if_pos htt] at hc
          cases hc
          exact List.mem_append_right _ List.mem_cons_self
        · rw [if_neg htt] at hc
          exact List.mem_append_left _ (h.constructed t' q i hc) }

theorem publish [Fintype T] (h : Writes s) (hp : Protocol s) {b w : ℕ}
    (ht : s.producers t = .pushing p (.publish b w)) :
    Writes ((s.setQueue (s.queue.onBuffer b (·.publish w))).goto t p (.count b)) := by
  obtain ⟨rfl, hw⟩ := hp.switching.pcs t p _ ht
  have hct : (s.producers t).constructed = some (p, w) := by rw [ht]; rfl
  have hwritten := written_publish s s.switches w
  exact
    { nodup := h.nodup
      owner := by
        intro v hv
        obtain ⟨hi, hc, hor⟩ := h.owner v hv
        refine ⟨hi, hc, ?_⟩
        rcases hor with hiw | ⟨hb, t', hc'⟩
        · exact .inl ((hwritten _ _).2 (.inr hiw))
        · by_cases htt : t' = t
          · obtain ⟨-, hvi⟩ := Prod.mk.inj (Option.some.inj (hc'.symm.trans (htt ▸ hct)))
            exact .inl ((hwritten _ _).2 (.inl ⟨hb, hvi⟩))
          · exact .inr ⟨hb, t', by rwa [view_goto Producer.constructed, if_neg htt]⟩
      written := by
        intro a i hi hiw
        rcases (hwritten a i).1 hiw with ⟨rfl, rfl⟩ | hold
        · exact ⟨_, h.constructed t p i hct, rfl⟩
        · exact h.written a i hi hold
      constructed := by
        intro t' q i hc
        rw [view_goto Producer.constructed] at hc
        by_cases htt : t' = t
        · rw [if_pos htt] at hc
          cases hc
        · rw [if_neg htt] at hc
          exact h.constructed t' q i hc }

theorem resetIndex [Fintype T] (h : Writes s) (hp : Protocol s)
    (ht : s.producers t = .pushing p .resetIndex) : Writes (s.afterReset.goto t p .unlock) := by
  have hnone {u : T} {q : Push T α} {i : ℕ}
      (hu : (s.producers u).constructed = some (q, i)) : False := by
    cases (hp.switching.not_pending ht u).symm.trans (pending_of_constructed hu)
  exact
    { nodup := h.nodup
      owner := by
        intro v hv
        obtain ⟨hi, hc, hor⟩ := h.owner v hv
        exact ⟨hi, hc, .inl (hor.resolve_right fun ⟨_, _, hu⟩ => hnone hu)⟩
      written := h.written
      constructed := by
        intro t' q i hc
        rw [view_goto Producer.constructed] at hc
        by_cases htt : t' = t
        · rw [if_pos htt] at hc
          cases hc
        · rw [if_neg htt] at hc
          exact (hnone hc).elim }

theorem step [Fintype T] (h : Writes s) (hp : Protocol s) {l : Label T α} (hs : Step s l s') :
    Writes s' := by
  cases hs with
  | begin t a ht =>
    exact h.congr rfl (List.prefix_refl _) rfl (fun _ _ _ => Iff.rfl)
      (view_update Producer.constructed (s := s) (congrArg Producer.constructed ht).symm)
  | claim t p ht hw =>
    exact h.congr rfl (List.prefix_append _ _) rfl (fun _ _ _ => Iff.rfl)
      (view_update Producer.constructed (s := s) (congrArg Producer.constructed ht).symm)
  | discard t p ht hw => exact (h.setQueue s.queue.fetchAddWriteIndex rfl).goto ht rfl
  | spin t => exact h
  | wait hc => exact h
  | retry t p ht hw => exact h.goto ht rfl
  | load t p w b ht hb => exact h.goto ht rfl
  | construct t p b w ht => exact h.construct hp ht
  | publish t p b w ht => exact h.publish hp ht
  | countLast t p b ht hfull =>
    exact (h.congr rfl (List.prefix_refl _) rfl (fun a _ hi => written_countUp s b a hi)
      fun _ => rfl : Writes (s.setQueue (s.queue.onBuffer b Buffer.countUp))).goto ht rfl
  | count t p b ht hfull =>
    exact (h.congr rfl (List.prefix_refl _) rfl (fun a _ hi => written_countUp s b a hi)
      fun _ => rfl : Writes (s.setQueue (s.queue.onBuffer b Buffer.countUp))).leave ht rfl
  | lock t p ht hflag => exact (h.setQueue s.queue.acquire rfl).goto ht rfl
  | alloc t p ht =>
    exact (h.setQueue s.queue.alloc (hp.slots.heap_alloc hp.switching ht)).goto ht rfl
  | badAlloc t p ht => exact h.goto ht rfl
  | setWriteBuffer t p next ht => exact (h.setQueue (s.queue.setWriteBuffer next) rfl).goto ht rfl
  | enqueue t p next ht => exact (h.setQueue (s.queue.enqueue next) rfl).goto ht rfl
  | resetIndex t p ht => exact h.resetIndex hp ht
  | unlock t p ht => exact (h.setQueue s.queue.release rfl).leave ht rfl
  | move b c hc hcell =>
    have h₁ : Writes (s.afterMove b c) := h.congr rfl (List.prefix_refl _) rfl
      (fun a i _ => written_afterMove s b c a i) fun _ => rfl
    unfold System.advance
    split
    · exact h₁.congr rfl (List.prefix_refl _) rfl (fun _ _ _ => Iff.rfl) fun _ => rfl
    · exact h₁.congr rfl (List.prefix_refl _) rfl (fun _ _ _ => Iff.rfl) fun _ => rfl
  | pop b rest hc hb =>
    exact h.congr rfl (List.prefix_refl _) rfl (fun a i _ => written_afterPop s b rest a i)
      fun _ => rfl
  | _ => exact h.congr rfl (List.prefix_refl _) rfl (fun _ _ _ => Iff.rfl) fun _ => rfl

theorem of_card [Fintype T] (hcard : Fintype.card T + Buffer.size < 2 ^ 32)
    {guard : System T α → Label T α → Prop} (h : (machine T α).Reachable guard s) : Writes s := by
  have both : Protocol s ∧ Writes s := by
    refine h.invariant (P := fun s => Protocol s ∧ Writes s) ⟨.init, .init⟩
      fun _ l _ hinv _ hstep => ?_
    exact ⟨hinv.1.step (hinv.1.switching.noWrap hcard l) (Step.of_step hstep),
      hinv.2.step hinv.1 (Step.of_step hstep)⟩
  exact both.2

end Writes

end QueueBuffer

end ZephyrLog
