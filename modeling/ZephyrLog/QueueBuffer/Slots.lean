import ZephyrLog.QueueBuffer.Switching

/-!
# The slots of the buffers

The claim at position `position b i` of `claims` owns slot `i` of buffer `b`.  `Slots` says what
every slot holds: nothing before its owner constructs an item there, the owner's line from then on
until the consumer moves it out, and that the flag of the slot is set exactly when the owner has
stored it.
-/

namespace ZephyrLog

namespace QueueBuffer

variable {T α : Type}

/-- The position of slot `i` of buffer `b` in the order of the claims. -/
def position (b i : ℕ) : ℕ := b * Buffer.size + i

theorem position_inj {b c i j : ℕ} (hi : i < Buffer.size) (hj : j < Buffer.size)
    (h : position b i = position c j) : b = c ∧ i = j := by
  unfold position at h
  have hij := congrArg (· % Buffer.size) h
  simp only [Nat.mul_add_mod_of_lt hi, Nat.mul_add_mod_of_lt hj] at hij
  exact ⟨Nat.eq_of_mul_eq_mul_right size_pos (by omega), hij⟩

/-- The flag of slot `i` of buffer `b` is set. -/
def System.Written (s : System T α) (b i : ℕ) : Prop := (s.queue.heap b).isWritten i

/-- What is in slot `i` of buffer `b`. -/
def System.slot (s : System T α) (b i : ℕ) : Option (Cell (Push T α)) := (s.queue.heap b).buffer i

/-- The push that is to set a flag, the index of its slot and what it has put there. -/
def Producer.pending : Producer T α → Option (Push T α × ℕ × Option (Cell (Push T α)))
  | .pushing p (.load w) | .pushing p (.construct _ w) => some (p, w, none)
  | .pushing p (.publish _ w) => some (p, w, some (.line p))
  | _ => none

/-- Owners, flags and contents of the slots agree. -/
structure Slots (s : System T α) : Prop where
  pending : ∀ t p i c, (s.producers t).pending = some (p, i, c) →
    i < Buffer.size ∧ s.claims[position s.switches i]? = some p ∧
      ¬ s.Written s.switches i ∧ s.slot s.switches i = c
  covered : ∀ i < s.claimed, s.Written s.switches i ∨
    ∃ t p c, (s.producers t).pending = some (p, i, c)
  unclaimed : ∀ i, s.claimed ≤ i → i < Buffer.size →
    ¬ s.Written s.switches i ∧ s.slot s.switches i = none
  unused : ∀ b > s.switches, ∀ i, s.slot b i = none
  finished : ∀ b < s.switches, ∀ i < Buffer.size, s.Written b i
  contents : ∀ b i, i < Buffer.size → s.Written b i → s.popped.length ≤ position b i →
    ∃ p, s.claims[position b i]? = some p ∧ s.slot b i = some (.line p)

/-- What a step of one producer keeps of that producer it keeps of every producer. -/
theorem view_update [DecidableEq T] {γ : Type} (view : Producer T α → γ) {s : System T α} {t : T}
    {x : Producer T α} (hx : view x = view (s.producers t)) (t' : T) :
    view (Function.update s.producers t x t') = view (s.producers t') := by
  by_cases ht : t' = t
  · subst ht
    rwa [Function.update_self]
  · rw [Function.update_of_ne ht]

theorem view_goto [DecidableEq T] {γ : Type} (view : Producer T α → γ) (s : System T α)
    (t t' : T) (p : Push T α) (pc : Pc) :
    view ((s.goto t p pc).producers t') =
      if t' = t then view (.pushing p pc) else view (s.producers t') := by
  by_cases ht : t' = t
  · subst ht
    rw [if_pos rfl]
    exact congrArg _ (Function.update_self _ _ _)
  · rw [if_neg ht]
    exact congrArg _ (Function.update_of_ne ht _ _)

theorem written_afterConstruct (s : System T α) (p : Push T α) (b w a i : ℕ) :
    (s.afterConstruct p b w).Written a i ↔ s.Written a i :=
  Iff.of_eq (onBuffer_view (Buffer.isWritten · i) (q := s.queue) (f := (·.construct w p)) rfl a)

theorem written_publish (s : System T α) (b w a i : ℕ) :
    (s.setQueue (s.queue.onBuffer b (·.publish w))).Written a i ↔
      (a = b ∧ i = w) ∨ s.Written a i := by
  simp only [System.Written, System.setQueue, onBuffer_heap]
  by_cases ha : a = b
  · subst ha
    simp only [true_and, if_true, Buffer.isWritten_publish]
  · simp only [ha, false_and, if_false, false_or]

theorem written_countUp (s : System T α) (b a : ℕ) {i : ℕ} (hi : i < Buffer.size) :
    (s.setQueue (s.queue.onBuffer b Buffer.countUp)).Written a i ↔ s.Written a i :=
  Iff.of_eq (onBuffer_view (Buffer.isWritten · i) (propext (Buffer.isWritten_countUp _ hi)) a)

theorem written_afterMove (s : System T α) (b : ℕ) (c : Cell (Push T α)) (a i : ℕ) :
    (s.afterMove b c).Written a i ↔ s.Written a i :=
  Iff.of_eq (onBuffer_view (Buffer.isWritten · i) (q := s.queue)
    (f := (·.moveOut s.queue.readIndex.toNat)) rfl a)

theorem written_afterPop (s : System T α) (b : ℕ) (rest : List ℕ) (a i : ℕ) :
    (s.afterPop b rest).Written a i ↔ s.Written a i :=
  Iff.of_eq (onBuffer_view (Buffer.isWritten · i) (q := s.queue) (f := Buffer.destroy) rfl a)

theorem not_written_init (b i : ℕ) : ¬ (System.init : System T α).Written b i := by
  simp [System.Written, System.init, new, setupNextWriteBuffer, release, resetIndex, enqueue,
    setWriteBuffer, alloc, acquire, Buffer.new, Buffer.isWritten]

/-- When the switching thread sets `m_writeIndex` back, no flag of the old buffer is to be set. -/
theorem Switching.not_pending [Fintype T] {s : System T α} (hsw : Switching s) {t : T}
    {p : Push T α} (ht : s.producers t = .pushing p .resetIndex) (t' : T) :
    (s.producers t').pending = none := by
  have hout := (hsw.claimed_of_switching
    (lt_of_lt_of_le Nat.one_pos (le_total Pc.switching ht))).2
  have hw := Threads.total_eq_zero_iff.1 hout t'
  cases hp : s.producers t' with
  | idle => rfl
  | pushing r pc =>
    rw [hp] at hw
    cases pc <;> first | rfl | cases hw

namespace Slots

variable {s s' : System T α} {t t' : T} {p q : Push T α} {pc : Pc} {i : ℕ}
  {c d : Option (Cell (Push T α))}

theorem init : Slots (System.init : System T α) where
  pending := by intro t p i c h; cases h
  covered := by
    intro i hi
    simp [System.claimed, System.init, new, setupNextWriteBuffer, release, resetIndex] at hi
  unclaimed := fun i _ _ => ⟨not_written_init 0 i, by
    simp [System.slot, System.init, new, setupNextWriteBuffer, release, resetIndex, enqueue,
      setWriteBuffer, alloc, acquire, Buffer.new]⟩
  unused := by
    intro b _ i
    simp [System.slot, System.init, new, setupNextWriteBuffer, release, resetIndex, enqueue,
      setWriteBuffer, alloc, acquire, Buffer.new]
  finished := by intro b hb; cases hb
  contents := fun b i _ hw => absurd hw (not_written_init b i)

/-- Two producers that are to set a flag have different slots. -/
theorem pending_inj (h : Slots s) (hh : History s) (ht : (s.producers t).pending = some (p, i, c))
    (ht' : (s.producers t').pending = some (q, i, d)) : t = t' := by
  have hthread {u : T} {r : Push T α} {e : Option (Cell (Push T α))}
      (hu : (s.producers u).pending = some (r, i, e)) : r.thread = u := by
    cases hp : s.producers u with
    | idle => rw [hp] at hu; cases hu
    | pushing r' pc =>
      have hr := (hh.pushing u r' pc hp).1
      rw [hp] at hu
      cases pc <;> cases hu <;> exact hr
  have hp := (h.pending t p i c ht).2.1
  have hq := (h.pending t' q i d ht').2.1
  rw [hp, Option.some.injEq] at hq
  rw [← hthread ht, ← hthread ht', hq]

theorem index_ne (h : Slots s) (hh : History s) {j : ℕ} (hne : t' ≠ t)
    (ht : (s.producers t).pending = some (p, i, c))
    (ht' : (s.producers t').pending = some (q, j, d)) : j ≠ i := by
  rintro rfl
  exact hne (h.pending_inj hh ht' ht)

/-- The index of a push that is to set a flag has been claimed. -/
theorem lt_claimed [Fintype T] (h : Slots s) (hsw : Switching s)
    (ht : (s.producers t).pending = some (p, i, c)) : i < s.claimed := by
  have hlen := (List.getElem?_eq_some_iff.1 (h.pending t p i c ht).2.1).1
  have hcl := hsw.claims_length
  unfold position at hlen
  omega

/-- Every claimed slot has its flag set or a push that is to set it. -/
theorem written_or_pending [Fintype T] (h : Slots s) (hsw : Switching s) {b : ℕ}
    (hi : i < Buffer.size) (hlt : position b i < s.claims.length) :
    s.Written b i ∨ b = s.switches ∧ ∃ t p c, (s.producers t).pending = some (p, i, c) := by
  have hcl := hsw.claims_length
  have hle := claimed_le_size s
  unfold position at hlt
  rcases Nat.lt_trichotomy b s.switches with hb | rfl | hb
  · exact .inl (h.finished b hb i hi)
  · exact (h.covered i (by omega)).imp_right fun hp => ⟨rfl, hp⟩
  · have hmul := Nat.mul_le_mul_right Buffer.size (show s.switches + 1 ≤ b by omega)
    rw [Nat.succ_mul] at hmul
    omega

/-- An operation that touches neither the slots nor who owns them. -/
theorem congr (h : Slots s)
    (hpending : ∀ t, (s'.producers t).pending = (s.producers t).pending)
    (hclaims : s'.claims = s.claims) (hswitches : s'.switches = s.switches)
    (hclaimed : s'.claimed = s.claimed) (hpopped : s'.popped.length = s.popped.length)
    (hwritten : ∀ b i, i < Buffer.size → (s'.Written b i ↔ s.Written b i))
    (hslot : ∀ b i, s'.slot b i = s.slot b i) : Slots s' where
  pending := by
    intro t p i c ht
    rw [hpending] at ht
    obtain ⟨hi, hc, hw, hs⟩ := h.pending t p i c ht
    rw [hswitches, hclaims, hwritten _ _ hi, hslot]
    exact ⟨hi, hc, hw, hs⟩
  covered := by
    intro i hi
    rw [hclaimed] at hi
    simp only [hpending, hswitches, hwritten _ _ (lt_of_lt_of_le hi (claimed_le_size s))]
    exact h.covered i hi
  unclaimed := by
    intro i hc hi
    rw [hclaimed] at hc
    rw [hswitches, hwritten _ _ hi, hslot]
    exact h.unclaimed i hc hi
  unused := by
    intro b hb i
    rw [hswitches] at hb
    rw [hslot]
    exact h.unused b hb i
  finished := by
    intro b hb i hi
    rw [hswitches] at hb
    rw [hwritten b i hi]
    exact h.finished b hb i hi
  contents := by
    intro b i hi hw hle
    rw [hwritten b i hi] at hw
    rw [hpopped] at hle
    rw [hclaims, hslot]
    exact h.contents b i hi hw hle

theorem setQueue (h : Slots s) (q : QueueBuffer (Push T α)) (hheap : q.heap = s.queue.heap)
    (hclaimed : (s.setQueue q).claimed = s.claimed) : Slots (s.setQueue q) :=
  h.congr (fun _ => rfl) rfl rfl hclaimed rfl (fun b i _ => by
    show (q.heap b).isWritten i ↔ _
    rw [hheap]
    rfl) fun b i => congrFun (congrArg Buffer.buffer (congrFun hheap b)) i

theorem await (h : Slots s) {q : QueueBuffer (Push T α)} (pc : Consumer)
    (hheap : q.heap = s.queue.heap) (hindex : q.writeIndex = s.queue.writeIndex) :
    Slots (s.await q pc) :=
  (h.setQueue q hheap (congrArg (fun w : BitVec 32 => min w.toNat Buffer.size) hindex)).congr
    (fun _ => rfl) rfl rfl rfl rfl (fun _ _ _ => Iff.rfl) fun _ _ => rfl

theorem advance (h : Slots s) : Slots s.advance := by
  unfold System.advance
  split
  · exact h.await _ rfl rfl
  · exact h.await _ rfl rfl

theorem afterMove [Fintype T] (h : Slots s) (hsw : Switching s) {b : ℕ} (c : Cell (Push T α))
    (hw : s.Written b s.queue.readIndex.toNat)
    (hpos : s.popped.length = position b s.queue.readIndex.toNat) : Slots (s.afterMove b c) := by
  have hwritten := written_afterMove s b c
  have hslot (a i : ℕ) (hne : ¬ (a = b ∧ i = s.queue.readIndex.toNat)) :
      (s.afterMove b c).slot a i = s.slot a i := by
    simp only [System.slot, System.afterMove, onBuffer_heap]
    split
    · next hab =>
      subst hab
      exact Buffer.buffer_moveOut _ fun hi => hne ⟨rfl, hi⟩
    · rfl
  exact
    { pending := by
        intro t p i d ht
        obtain ⟨hi, hc, hnw, hs⟩ := h.pending t p i d ht
        refine ⟨hi, hc, fun hiw => hnw ((hwritten _ _).1 hiw), ?_⟩
        show (s.afterMove b c).slot s.switches i = d
        rw [hslot _ _ ?_]
        · exact hs
        · rintro ⟨rfl, rfl⟩
          exact hnw hw
      covered := by
        intro i hi
        exact (h.covered i hi).imp_left (hwritten _ _).2
      unclaimed := by
        intro i hci hi
        obtain ⟨hnw, hs⟩ := h.unclaimed i hci hi
        refine ⟨fun hiw => hnw ((hwritten _ _).1 hiw), ?_⟩
        show (s.afterMove b c).slot s.switches i = none
        rw [hslot _ _ ?_]
        · exact hs
        · rintro ⟨rfl, rfl⟩
          exact hnw hw
      unused := by
        intro a ha i
        rw [hslot _ _ ?_]
        · exact h.unused a ha i
        · rintro ⟨rfl, rfl⟩
          exact hsw.not_isWritten ha _ hw
      finished := fun a ha i hi => (hwritten a i).2 (h.finished a ha i hi)
      contents := by
        intro a i hi hiw hle
        have hlen : (s.afterMove b c).popped.length = s.popped.length + 1 := List.length_append
        rw [hlen] at hle
        rw [hslot _ _ ?_]
        · exact h.contents a i hi ((hwritten a i).1 hiw) (by omega)
        · rintro ⟨rfl, rfl⟩
          omega }

theorem afterPop (h : Slots s) {b : ℕ} (rest : List ℕ)
    (hw : ∀ i < Buffer.size, s.Written b i)
    (hpos : ∀ i < Buffer.size, position b i < s.popped.length) : Slots (s.afterPop b rest) := by
  have hwritten := written_afterPop s b rest
  have hslot (a i : ℕ) (hne : a ≠ b) : (s.afterPop b rest).slot a i = s.slot a i := by
    simp only [System.slot, System.afterPop, onBuffer_heap, if_neg hne]
  have hnone (a i : ℕ) (hs : s.slot a i = none) : (s.afterPop b rest).slot a i = none := by
    by_cases hab : a = b
    · subst hab
      simp only [System.slot, System.afterPop, onBuffer_heap, if_true]
      exact Buffer.buffer_destroy _ i hs
    · rw [hslot a i hab, hs]
  exact
    { pending := by
        intro t p i d ht
        obtain ⟨hi, hc, hnw, hs⟩ := h.pending t p i d ht
        refine ⟨hi, hc, fun hiw => hnw ((hwritten _ _).1 hiw), (hslot _ i ?_).trans hs⟩
        intro hb
        exact hnw ((show s.switches = b from hb) ▸ hw i hi)
      covered := fun i hi => (h.covered i hi).imp_left (hwritten _ _).2
      unclaimed := by
        intro i hci hi
        obtain ⟨hnw, hs⟩ := h.unclaimed i hci hi
        exact ⟨fun hiw => hnw ((hwritten _ _).1 hiw), hnone _ i hs⟩
      unused := fun a ha i => hnone a i (h.unused a ha i)
      finished := fun a ha i hi => (hwritten a i).2 (h.finished a ha i hi)
      contents := by
        intro a i hi hiw hle
        rw [hslot a i ?_]
        · exact h.contents a i hi ((hwritten a i).1 hiw) hle
        · rintro rfl
          exact Nat.not_le_of_lt (hpos i hi) hle }

variable [DecidableEq T]

/-- A call goes on while the slots and their owners stay as they are. -/
theorem goto (h : Slots s) {pc' : Pc} (ht : s.producers t = .pushing p pc)
    (hpc : (Producer.pushing p pc').pending = (Producer.pushing p pc).pending) :
    Slots (s.goto t p pc') :=
  h.congr (view_update Producer.pending (by rw [hpc, ht])) rfl rfl rfl rfl
    (fun _ _ _ => Iff.rfl) fun _ _ => rfl

theorem leave (h : Slots s) (ht : s.producers t = .pushing p pc)
    (hpc : (Producer.pushing p pc).pending = none) : Slots (s.leave t) :=
  h.congr (view_update Producer.pending (by rw [ht, hpc]; rfl)) rfl rfl rfl rfl
    (fun _ _ _ => Iff.rfl) fun _ _ => rfl

theorem begin (h : Slots s) (ht : s.producers t = .idle) : Slots ((s.begin p).goto t p .claim) :=
  h.congr (view_update Producer.pending (s := s) (congrArg Producer.pending ht).symm) rfl rfl rfl
    rfl (fun _ _ _ => Iff.rfl) fun _ _ => rfl

theorem claim [Fintype T] (h : Slots s) (hsw : Switching s)
    (ht : s.producers t = .pushing p .claim) (hw : s.queue.writeIndex.toNat < Buffer.size) :
    Slots ((s.afterClaim p).goto t p (.load s.queue.writeIndex.toNat)) := by
  have hclaimed : s.claimed = s.queue.writeIndex.toNat := Nat.min_eq_left hw.le
  have hlen : s.claims.length = position s.switches s.queue.writeIndex.toNat := by
    rw [hsw.claims_length, hclaimed, position]
  have hclaimed' :
      ((s.afterClaim p).goto t p (.load s.queue.writeIndex.toNat)).claimed = s.claimed + 1 := by
    rw [hclaimed]
    exact claimed_afterClaim p hw
  have hmono {n : ℕ} {q : Push T α} (hn : s.claims[n]? = some q) :
      (s.claims ++ [p])[n]? = some q := by
    rw [List.getElem?_append_left (List.getElem?_eq_some_iff.1 hn).1, hn]
  obtain ⟨hnw, hs⟩ := h.unclaimed _ hclaimed.le hw
  exact
    { pending := by
        intro t' q i d ht'
        rw [view_goto Producer.pending] at ht'
        by_cases htt : t' = t
        · rw [if_pos htt] at ht'
          cases ht'
          refine ⟨hw, ?_, hnw, hs⟩
          show (s.claims ++ [p])[position s.switches s.queue.writeIndex.toNat]? = some p
          rw [← hlen]
          exact List.getElem?_concat_length
        · rw [if_neg htt] at ht'
          obtain ⟨hi, hc, hnw, hs⟩ := h.pending t' q i d ht'
          exact ⟨hi, hmono hc, hnw, hs⟩
      covered := by
        intro i hi
        rw [hclaimed'] at hi
        rcases Nat.lt_succ_iff_lt_or_eq.1 hi with hi | rfl
        · apply (h.covered i hi).imp_right
          rintro ⟨t', q, d, ht'⟩
          refine ⟨t', q, d, ?_⟩
          have hne : t' ≠ t := by
            rintro rfl
            rw [ht] at ht'
            cases ht'
          rwa [view_goto Producer.pending, if_neg hne]
        · refine .inr ⟨t, p, none, ?_⟩
          rw [hclaimed, view_goto Producer.pending, if_pos rfl]
          rfl
      unclaimed := by
        intro i hci hi
        rw [hclaimed'] at hci
        exact h.unclaimed i (by omega) hi
      unused := h.unused
      finished := h.finished
      contents := by
        intro b i hi hiw hle
        obtain ⟨q, hq, hs⟩ := h.contents b i hi hiw hle
        exact ⟨q, hmono hq, hs⟩ }

theorem construct [Fintype T] (h : Slots s) (hh : History s) (hsw : Switching s) {b w : ℕ}
    (ht : s.producers t = .pushing p (.construct b w)) :
    Slots ((s.afterConstruct p b w).goto t p (.publish b w)) := by
  obtain ⟨rfl, hw⟩ := hsw.pcs t p _ ht
  have hpt : (s.producers t).pending = some (p, w, none) := by rw [ht]; rfl
  obtain ⟨-, hclaim, hnw, -⟩ := h.pending t p w none hpt
  have hwritten := written_afterConstruct s p s.switches w
  have hslot (a i : ℕ) : (s.afterConstruct p s.switches w).slot a i =
      if a = s.switches ∧ i = w then some (.line p) else s.slot a i := by
    simp only [System.slot, System.afterConstruct, onBuffer_heap]
    by_cases ha : a = s.switches
    · subst ha
      simp only [true_and, if_true, Buffer.buffer_construct]
    · simp only [ha, false_and, if_false]
  exact
    { pending := by
        intro t' q i d ht'
        rw [view_goto Producer.pending] at ht'
        by_cases htt : t' = t
        · rw [if_pos htt] at ht'
          cases ht'
          refine ⟨hw, hclaim, fun hiw => hnw ((hwritten _ _).1 hiw), ?_⟩
          exact (hslot _ _).trans (if_pos ⟨rfl, rfl⟩)
        · rw [if_neg htt] at ht'
          obtain ⟨hi, hc, hnw, hs⟩ := h.pending t' q i d ht'
          refine ⟨hi, hc, fun hiw => hnw ((hwritten _ _).1 hiw), ?_⟩
          exact (hslot _ _).trans ((if_neg fun hiw => h.index_ne hh htt hpt ht' hiw.2).trans hs)
      covered := by
        intro i hi
        rcases h.covered i hi with hiw | ⟨t', q, d, ht'⟩
        · exact .inl ((hwritten _ _).2 hiw)
        · right
          by_cases htt : t' = t
          · rw [htt, hpt] at ht'
            cases ht'
            exact ⟨t, p, some (.line p), by rw [view_goto Producer.pending, if_pos rfl]; rfl⟩
          · exact ⟨t', q, d, by rwa [view_goto Producer.pending, if_neg htt]⟩
      unclaimed := by
        intro i hci hi
        obtain ⟨hniw, hs⟩ := h.unclaimed i hci hi
        refine ⟨fun hiw => hniw ((hwritten _ _).1 hiw), (hslot _ _).trans ((if_neg ?_).trans hs)⟩
        rintro ⟨-, rfl⟩
        exact Nat.not_lt_of_le hci (h.lt_claimed hsw hpt)
      unused := by
        intro b hb i
        refine (hslot _ _).trans ((if_neg ?_).trans (h.unused b hb i))
        rintro ⟨rfl, -⟩
        exact Nat.lt_irrefl _ hb
      finished := fun b hb i hi => (hwritten b i).2 (h.finished b hb i hi)
      contents := by
        intro b i hi hiw hle
        have hold := (hwritten b i).1 hiw
        obtain ⟨q, hq, hs⟩ := h.contents b i hi hold hle
        refine ⟨q, hq, (hslot _ _).trans ((if_neg ?_).trans hs)⟩
        rintro ⟨rfl, rfl⟩
        exact hnw hold }

theorem publish [Fintype T] (h : Slots s) (hh : History s) (hsw : Switching s) {b w : ℕ}
    (ht : s.producers t = .pushing p (.publish b w)) :
    Slots ((s.setQueue (s.queue.onBuffer b (·.publish w))).goto t p (.count b)) := by
  obtain ⟨rfl, hw⟩ := hsw.pcs t p _ ht
  have hpt : (s.producers t).pending = some (p, w, some (.line p)) := by rw [ht]; rfl
  obtain ⟨-, hclaim, hnw, hsp⟩ := h.pending t p w _ hpt
  have hwritten := written_publish s s.switches w
  have hslot (a i : ℕ) :
      (s.setQueue (s.queue.onBuffer s.switches (·.publish w))).slot a i = s.slot a i :=
    onBuffer_view (Buffer.buffer · i) (q := s.queue) (f := (·.publish w)) rfl a
  exact
    { pending := by
        intro t' q i d ht'
        rw [view_goto Producer.pending] at ht'
        by_cases htt : t' = t
        · rw [if_pos htt] at ht'
          cases ht'
        · rw [if_neg htt] at ht'
          obtain ⟨hi, hc, hniw, hs⟩ := h.pending t' q i d ht'
          refine ⟨hi, hc, fun hiw => ?_, (hslot _ _).trans hs⟩
          exact ((hwritten _ _).1 hiw).elim (fun hiw => h.index_ne hh htt hpt ht' hiw.2) hniw
      covered := by
        intro i hi
        rcases h.covered i hi with hiw | ⟨t', q, d, ht'⟩
        · exact .inl ((hwritten _ _).2 (.inr hiw))
        · by_cases htt : t' = t
          · rw [htt, hpt] at ht'
            cases ht'
            exact .inl ((hwritten _ _).2 (.inl ⟨rfl, rfl⟩))
          · exact .inr ⟨t', q, d, by rwa [view_goto Producer.pending, if_neg htt]⟩
      unclaimed := by
        intro i hci hi
        obtain ⟨hniw, hs⟩ := h.unclaimed i hci hi
        refine ⟨fun hiw => ((hwritten _ _).1 hiw).elim ?_ hniw, (hslot _ _).trans hs⟩
        rintro ⟨-, rfl⟩
        exact Nat.not_lt_of_le hci (h.lt_claimed hsw hpt)
      unused := fun b hb i => (hslot b i).trans (h.unused b hb i)
      finished := fun b hb i hi => (hwritten b i).2 (.inr (h.finished b hb i hi))
      contents := by
        intro b i hi hiw hle
        rcases (hwritten b i).1 hiw with ⟨rfl, rfl⟩ | hold
        · exact ⟨p, hclaim, (hslot _ _).trans hsp⟩
        · obtain ⟨q, hq, hs⟩ := h.contents b i hi hold hle
          exact ⟨q, hq, (hslot _ _).trans hs⟩ }

omit [DecidableEq T] in
theorem countUp (h : Slots s) (b : ℕ) :
    Slots (s.setQueue (s.queue.onBuffer b Buffer.countUp)) :=
  h.congr (fun _ => rfl) rfl rfl rfl rfl (fun a _ hi => written_countUp s b a hi)
    fun a i => onBuffer_view (Buffer.buffer · i) rfl a

omit [DecidableEq T] in
/-- The memory a new buffer gets looks like a new buffer already. -/
theorem heap_alloc [Fintype T] (h : Slots s) (hsw : Switching s)
    (ht : s.producers t = .pushing p .alloc) : s.queue.alloc.heap = s.queue.heap := by
  funext b
  by_cases hb : b = s.queue.allocated
  · have hgt : s.switches < b := by
      rw [hb, (hsw.pcs t p _ ht).allocated]
      exact Nat.lt_succ_self _
    have hnew : s.queue.heap b = .new := by
      have hslots : (s.queue.heap b).buffer = fun _ => none := funext (h.unused b hgt)
      have hflags : (s.queue.heap b).writeState = fun _ => 0 := funext (hsw.unused b hgt)
      cases hbuf : s.queue.heap b with
      | mk buffer writeState =>
        rw [hbuf] at hslots hflags
        simp only at hslots hflags
        rw [hslots, hflags]
        rfl
    rw [hnew, hb]
    exact Function.update_self _ _ _
  · exact Function.update_of_ne hb _ _

theorem resetIndex [Fintype T] (h : Slots s) (hsw : Switching s)
    (ht : s.producers t = .pushing p .resetIndex) : Slots (s.afterReset.goto t p .unlock) := by
  have hclaimed := (hsw.claimed_of_switching
    (lt_of_lt_of_le Nat.one_pos (le_total Pc.switching ht))).1
  have hnone {u : T} {q : Push T α} {i : ℕ} {d : Option (Cell (Push T α))}
      (hu : (s.producers u).pending = some (q, i, d)) : False := by
    cases (hsw.not_pending ht u).symm.trans hu
  have hall (i : ℕ) (hi : i < Buffer.size) : s.Written s.switches i :=
    (h.covered i (hclaimed ▸ hi)).resolve_right fun ⟨_, _, _, hu⟩ => hnone hu
  have hclaimed' : (s.afterReset.goto t p .unlock).claimed = 0 := by
    simp [System.claimed, System.goto, System.afterReset, QueueBuffer.resetIndex]
  exact
    { pending := by
        intro t' q i d ht'
        rw [view_goto Producer.pending] at ht'
        by_cases htt : t' = t
        · rw [if_pos htt] at ht'
          cases ht'
        · rw [if_neg htt] at ht'
          exact (hnone ht').elim
      covered := by
        intro i hi
        rw [hclaimed'] at hi
        exact absurd hi (Nat.not_lt_zero i)
      unclaimed := fun i _ _ =>
        ⟨hsw.not_isWritten (Nat.lt_succ_self _) i, h.unused _ (Nat.lt_succ_self _) i⟩
      unused := fun b hb i => h.unused b (lt_trans (Nat.lt_succ_self _) hb) i
      finished := by
        intro b hb i hi
        rcases Nat.lt_succ_iff_lt_or_eq.1 hb with hlt | rfl
        · exact h.finished b hlt i hi
        · exact hall i hi
      contents := h.contents }

end Slots

end QueueBuffer

end ZephyrLog
