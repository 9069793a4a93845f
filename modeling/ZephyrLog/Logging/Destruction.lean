import ZephyrLog.Logging.Ownership

/-!
# Destructors

The destructor of a logger is run by one thread, which begins it, stores `SHUTDOWN` and joins the
worker in this order (`InOrder`).
-/

namespace ZephyrLog

namespace Logging

variable {T : Type} {s s' : System T} {t u : T} {l : Ref} {label : Label T}

/-- How far the owner of the logger `l` is. -/
def System.owner (s : System T) (l : Ref) : AsyncLogger.Owner := (s.loggers l).impl.owner

/-- What a thread has left to do: the rest of one destructor, and pointers to release. -/
inductive InOrder (owner : Ref → AsyncLogger.Owner) : List Cleanup → Prop
  | releases (refs : List Ref) : InOrder owner (refs.map .release)
  | destroy (l : Ref) (refs : List Ref) :
    InOrder owner (.destroy l :: .shutDown l :: .join l :: refs.map .release)
  | shutDown (l : Ref) (refs : List Ref) (h : owner l = .destroying) :
    InOrder owner (.shutDown l :: .join l :: refs.map .release)
  | join (l : Ref) (refs : List Ref) (h : owner l = .joining) :
    InOrder owner (.join l :: refs.map .release)

/-- The thread `t` runs the destructor of `l`. -/
def Destroys (s : System T) (t : T) (l : Ref) : Prop := .join l ∈ (s.threads t).cleanup

/-- What holds of the destructors that run. -/
structure Destruction (s : System T) : Prop where
  order : ∀ t, InOrder s.owner (s.threads t).cleanup
  unique : ∀ t u l, Destroys s t l → Destroys s u l → t = u
  allocated : ∀ t l, Destroys s t l → l < s.allocated

namespace InOrder

variable {owner owner' : Ref → AsyncLogger.Owner} {cleanup rest : List Cleanup}

theorem congr (h : InOrder owner cleanup) (howner : ∀ l, .join l ∈ cleanup → owner' l = owner l) :
    InOrder owner' cleanup := by
  cases h with
  | releases refs => exact .releases refs
  | destroy l refs => exact .destroy l refs
  | shutDown l refs h => exact .shutDown l refs (by rw [howner l (by simp), h])
  | join l refs h => exact .join l refs (by rw [howner l (by simp), h])

theorem of_release (h : InOrder owner (.release l :: rest)) :
    ∃ refs : List Ref, rest = refs.map .release := by
  generalize hc : Cleanup.release l :: rest = cleanup at h
  cases h with
  | releases refs =>
    cases refs with
    | nil => simp at hc
    | cons r refs => exact ⟨refs, (List.cons.inj hc).2⟩
  | _ => simp at hc

theorem of_destroy (h : InOrder owner (.destroy l :: rest)) :
    ∃ refs : List Ref, rest = .shutDown l :: .join l :: refs.map .release := by
  generalize hc : Cleanup.destroy l :: rest = cleanup at h
  cases h with
  | releases refs => cases refs <;> simp at hc
  | destroy l' refs =>
    obtain ⟨hl, rfl⟩ := List.cons.inj hc
    cases hl
    exact ⟨refs, rfl⟩
  | _ => simp at hc

theorem of_shutDown (h : InOrder owner (.shutDown l :: rest)) :
    owner l = .destroying ∧ ∃ refs : List Ref, rest = .join l :: refs.map .release := by
  generalize hc : Cleanup.shutDown l :: rest = cleanup at h
  cases h with
  | releases refs => cases refs <;> simp at hc
  | shutDown l' refs h =>
    obtain ⟨hl, rfl⟩ := List.cons.inj hc
    cases hl
    exact ⟨h, refs, rfl⟩
  | _ => simp at hc

theorem of_join (h : InOrder owner (.join l :: rest)) :
    owner l = .joining ∧ ∃ refs : List Ref, rest = refs.map .release := by
  generalize hc : Cleanup.join l :: rest = cleanup at h
  cases h with
  | releases refs => cases refs <;> simp at hc
  | join l' refs h =>
    obtain ⟨hl, rfl⟩ := List.cons.inj hc
    cases hl
    exact ⟨h, refs, rfl⟩
  | _ => simp at hc

end InOrder

theorem not_mem_releases (refs : List Ref) : Cleanup.join l ∉ refs.map .release := by simp

namespace Destruction

theorem init (content : Text → Option (List Byte)) :
    Destruction (System.init content : System T) where
  order := fun _ => .releases []
  unique := fun _ _ _ h => by cases h
  allocated := fun _ _ h => by cases h

/-- A logger whose destructor a thread runs is dying. -/
theorem dying (h : Destruction s) (hl : Destroys s t l) : s.Dying l := by
  have horder := h.order t
  unfold Destroys at hl
  generalize hc : (s.threads t).cleanup = cleanup at horder hl
  cases horder with
  | releases refs => exact absurd hl (not_mem_releases refs)
  | destroy l' refs =>
    obtain rfl : l = l' := by simpa using hl
    exact .inr ⟨t, hc ▸ List.mem_cons_self⟩
  | shutDown l' refs ho =>
    obtain rfl : l = l' := by simpa using hl
    exact .inl (.inl ho)
  | join l' refs ho =>
    obtain rfl : l = l' := by simpa using hl
    exact .inl (.inr (.inl ho))

/-- A step that leaves the threads and the owners alone. -/
theorem of_same (h : Destruction s) (hthreads : s'.threads = s.threads)
    (howner : ∀ l, s'.owner l = s.owner l) (hallocated : s'.allocated = s.allocated) :
    Destruction s' where
  order := by
    intro t
    rw [hthreads]
    exact (h.order t).congr fun l _ => howner l
  unique := by
    unfold Destroys
    rw [hthreads]
    exact h.unique
  allocated := by
    unfold Destroys
    rw [hthreads, hallocated]
    exact h.allocated

theorem owner_setImpl {m : Impl T} (l' : Ref) :
    (s.setImpl l m).owner l' = if l' = l then m.owner else s.owner l' := by
  unfold System.owner
  rw [setImpl_impl]
  split <;> rfl

variable [DecidableEq T]

/-- A step of the thread `t`, which begins no destructor that another thread runs. -/
theorem of_thread (h : Destruction s) {th : Thread T}
    (hthreads : s'.threads = Function.update s.threads t th)
    (horder : InOrder s'.owner th.cleanup)
    (howner : ∀ u l, u ≠ t → Destroys s u l → s'.owner l = s.owner l)
    (hallocated : s.allocated ≤ s'.allocated)
    (hjoin : ∀ l, .join l ∈ th.cleanup → l < s.allocated ∧ ∀ u, u ≠ t → ¬ Destroys s u l) :
    Destruction s' := by
  have hself : (s'.threads t).cleanup = th.cleanup := by rw [hthreads, Function.update_self]
  have hother (u : T) (hu : u ≠ t) : (s'.threads u).cleanup = (s.threads u).cleanup := by
    rw [hthreads, Function.update_of_ne hu]
  refine ⟨fun u => ?_, fun u v l hu hv => ?_, fun u l hu => ?_⟩
  · by_cases hut : u = t
    · subst hut
      rwa [hself]
    · rw [hother u hut]
      exact (h.order u).congr fun l hl => howner u l hut hl
  · unfold Destroys at hu hv
    by_cases hut : u = t
    · subst hut
      rw [hself] at hu
      by_contra hne
      rw [hother v (Ne.symm hne)] at hv
      exact (hjoin l hu).2 v (Ne.symm hne) hv
    · rw [hother u hut] at hu
      by_cases hvt : v = t
      · subst hvt
        rw [hself] at hv
        exact absurd hu ((hjoin l hv).2 u hut)
      · rw [hother v hvt] at hv
        exact h.unique u v l hu hv
  · apply Nat.lt_of_lt_of_le _ hallocated
    unfold Destroys at hu
    by_cases hut : u = t
    · subst hut
      rw [hself] at hu
      exact (hjoin l hu).1
    · rw [hother u hut] at hu
      exact h.allocated u l hu

/-- The same, where only pointers to release are left. -/
theorem of_releases (h : Destruction s) {th : Thread T}
    (hthreads : s'.threads = Function.update s.threads t th) (refs : List Ref)
    (hcleanup : th.cleanup = refs.map .release)
    (howner : ∀ u l, Destroys s u l → s'.owner l = s.owner l)
    (hallocated : s.allocated ≤ s'.allocated) : Destruction s' := by
  refine h.of_thread hthreads ?_ (fun u l _ hl => howner u l hl) hallocated fun l hl => ?_
  · rw [hcleanup]
    exact .releases refs
  · rw [hcleanup] at hl
    exact absurd hl (not_mem_releases refs)

/-- A step of a logger that its owner does not make. -/
theorem owner_moved {m : Impl T} {il : AsyncLogger.Label T Text}
    (hm : (s.loggers l).impl.step il = some m) (hown : il ≠ .own) (hdestroy : il ≠ .destroy)
    (l' : Ref) : (s.setImpl l m).owner l' = s.owner l' := by
  rw [owner_setImpl]
  split
  · next heq => rw [heq, Impl.owner_of_step hm hown hdestroy, System.owner]
  · rfl

/-- A step of the destructor of `l` that `t` runs. -/
theorem of_destructor (h : Destruction s) (hl : Destroys s t l) {m : Impl T} {th : Thread T}
    (hthreads : s'.threads = Function.update s.threads t th)
    (howner : ∀ l', s'.owner l' = if l' = l then m.owner else s.owner l')
    (hallocated : s'.allocated = s.allocated) (horder : s'.owner l = m.owner →
      InOrder s'.owner th.cleanup) (hjoin : ∀ l', .join l' ∈ th.cleanup → l' = l) :
    Destruction s' := by
  refine h.of_thread hthreads (horder ?_) (fun u l' hu hl' => ?_) hallocated.ge fun l' hl' => ?_
  · rw [howner, if_pos rfl]
  · rw [howner, if_neg]
    rintro rfl
    exact hu (h.unique u t l' hl' hl)
  · rw [hjoin l' hl']
    exact ⟨h.allocated t l hl, fun u hu hul => hu (h.unique u t l hul hl)⟩

theorem step (h : Destruction s) (hshared : Shared s) (hs : Stepped s label s') :
    Destruction s' := by
  cases hs with
  | setDefaultNull t hi => exact h
  | log t level line hi | setLogLevel t level hi | setDefault t l hi hl | dropEntry t name l hi hl
  | dropDefault t l hi hl | loadLevel t c hp | readLevel t c l hp | readGlobalLevel t c hp
  | loadLogger t c hp | finish t c hp | loadDefault t level hp | register t l next hp hm
  | unlockStore t l hp | store t l hp =>
    exact h.of_releases rfl _ rfl (fun _ _ _ => rfl) le_rfl
  | getDefault t hi | unlockKeep t l hp =>
    exact h.of_releases rfl [] rfl (fun _ _ _ => rfl) le_rfl
  | drop t l hi hl => exact h.of_releases rfl [l] rfl (fun _ _ _ => rfl) le_rfl
  | setLevel t level l hp =>
    refine h.of_releases rfl _ rfl (fun u l' _ => congrArg Impl.owner ?_) le_rfl
    exact impl_update_same (x := { s.loggers l with level }) rfl l'
  | makeDefault t c hi | create t name c hi =>
    refine h.of_releases rfl _ rfl (fun u l hl => ?_) (Nat.le_succ _)
    exact congrArg (Impl.owner ∘ Logger.impl) (System.make_loggers (h.allocated u l hl).ne)
  | construct t l next m hp hm =>
    refine h.of_releases rfl _ rfl (fun u l' hl' => ?_) le_rfl
    refine (owner_setImpl l').trans (if_neg ?_)
    rintro rfl
    exact hshared.dead l' (h.dying hl') (.of_at hp (List.mem_singleton_self l'))
  | add t c l m hp hm | addReturned t c l m hp hm ha =>
    exact h.of_releases rfl _ rfl (fun u l' _ => owner_moved hm nofun nofun l') le_rfl
  | adding t c l m hp hm ha | badAlloc t c l m hp hm | work l m hl hm hp =>
    exact h.of_same rfl (owner_moved hm nofun nofun) rfl
  | write l m line hl hm hp =>
    refine h.of_same rfl (fun l' => ?_) rfl
    refine Eq.trans ?_ (owner_moved hm nofun nofun l')
    exact congrArg Impl.owner (write_impl line l')
  | release t l rest hc ho =>
    have horder := h.order t
    rw [hc] at horder
    obtain ⟨refs, hrest⟩ := horder.of_release
    exact h.of_releases rfl refs hrest (fun _ _ _ => rfl) le_rfl
  | releaseLast t l rest hc ho =>
    have horder := h.order t
    rw [hc] at horder
    obtain ⟨refs, rfl⟩ := horder.of_release
    have howned : s.Owned l := by
      apply System.Owned.cleanup (t := t) (c := .release l) _ (List.mem_singleton_self l)
      rw [hc]
      exact List.mem_cons_self
    refine h.of_thread rfl (.destroy l refs) (fun _ _ _ _ => rfl) le_rfl fun l' hl' => ?_
    obtain rfl : l' = l := by simpa using hl'
    exact ⟨hshared.fresh l' howned, fun u _ hu => hshared.dead l' (h.dying hu) howned⟩
  | destroy t l rest m hc hm =>
    have horder := h.order t
    rw [hc] at horder
    obtain ⟨refs, rfl⟩ := horder.of_destroy
    have hl : Destroys s t l := by simp [Destroys, hc]
    refine h.of_destructor hl rfl owner_setImpl rfl (fun ho => .shutDown l refs ?_) ?_
    · exact ho.trans (Impl.owner_of_destroy hm).2
    · simp
  | shutDown t l rest m hc hm =>
    have horder := h.order t
    rw [hc] at horder
    obtain ⟨hdestroying, refs, rfl⟩ := horder.of_shutDown
    have hl : Destroys s t l := by simp [Destroys, hc]
    refine h.of_destructor hl rfl owner_setImpl rfl (fun ho => .join l refs ?_) ?_
    · rw [ho]
      have hcases := Impl.own_cases hm
      unfold System.owner at hdestroying
      simpa [hdestroying] using hcases
    · simp
  | join t l rest m hc hm =>
    have horder := h.order t
    rw [hc] at horder
    obtain ⟨-, refs, rfl⟩ := horder.of_join
    have hl : Destroys s t l := by simp [Destroys, hc]
    refine h.of_destructor hl rfl (m := m) (fun l' => ?_) rfl (fun _ => .releases refs) ?_
    · exact (congrArg Impl.owner (closeWriter_impl l')).trans (owner_setImpl l')
    · simp

end Destruction

theorem Destruction.of_reachable [DecidableEq T] [Fintype T] {content : Text → Option (List Byte)}
    {guard : System T → Label T → Prop} (h : (machine T content).Reachable guard s) :
    Destruction s := by
  induction h with
  | refl => exact .init content
  | tail label hreach hg hs ih => exact ih.step (.of_reachable hreach) (.of_step hs)

end Logging

end ZephyrLog
