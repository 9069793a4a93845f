import ZephyrLog.Registry.Access

/-!
# The registry is linearizable

The operations on the registry take effect one after the other, each between the beginning and the
return of its call, and every call of `getLogger` returns what a sequential run of the operations
before its own leaves under the name (`lookups_linearize`).  For the map itself the mutex is what
counts: an entry with a null pointer is seen by the thread alone that has inserted it, and an entry
that was found is there until it has been used.
-/

namespace ZephyrLog

namespace Registry

namespace Access

open SharedMutex (Mode)

variable {T : Type} {s s' : System T} {t u : T} {p q : Point} {n name : Text} {l : Ref}

section Steps

variable [DecidableEq T]

/-! ## The mutex -/

theorem mode_update (threads : T → Point) (t : T) (q : Point) :
    (fun u => (Function.update threads t q u).mode) =
      Function.update (fun u => (threads u).mode) t q.mode := by
  funext u
  exact Function.apply_update (fun _ => Point.mode) threads t q u

/-- The mutex is held by the threads that are in a critical section. -/
def Locked (s : System T) : Prop := s.mutex.Agrees fun t => (s.threads t).mode

theorem Locked.step (h : Locked s) (hs : Stepped s s') : Locked s' := by
  have mode {t : T} {p : Point} {md : Option Mode} (hp : s.threads t = p) (hmd : md = p.mode) :
      md = (fun u => (s.threads u).mode) t := by
    rw [hmd, ← hp]
  unfold Locked
  cases hs with
  | setDefaultNull => exact h
  | getLogger t name hp | create t name hp | setDefault t l hp hl | removeLogger t name hp
  | findMissing t start name hp he | findFound t start name hp he | second t start name r hp he
  | insert t start name l next hp | assign t start name l next hp | store t start name l hp
  | removeMissing t start name hp he | removeFound t start name hp he
  | clear t start name hp | erase t start name hp =>
    exact (mode_update s.threads t _).symm ▸ h.keep (mode hp rfl)
  | loadDefault t start name q hp hq =>
    exact (mode_update s.threads t q).symm ▸ h.keep (mode hp (by rcases hq with rfl | rfl <;> rfl))
  | lockShared t start name m hp hm =>
    exact (mode_update s.threads t _).symm ▸ h.lockShared hm
  | lock t start name l next m hp hm =>
    exact (mode_update s.threads t _).symm ▸ h.lock hm
  | lockRemove t start name m hp hm =>
    exact (mode_update s.threads t _).symm ▸ h.lock hm
  | unlockShared t start name r hp =>
    exact (mode_update s.threads t _).symm ▸ h.unlockShared (mode hp rfl).symm
  | unlockKeep t start name l hp | unlockStore t start name l hp
  | unlockRemove t start name hp =>
    exact (mode_update s.threads t _).symm ▸ h.unlock (mode hp rfl).symm

/-! ## The entries -/

/-- The entry that the next operation of the thread uses. -/
def Point.uses : Point → Option Text
  | .second _ name | .assign _ name _ _ | .loadDefault _ name | .clear _ name | .erase _ name =>
    some name
  | _ => none

theorem Point.mode_of_uses (h : p.uses = some n) : p.mode ≠ none := by
  cases p <;> simp [uses, mode] at h ⊢

/-- The operations in the order in which they took effect. -/
def System.ops (s : System T) : List Op := s.effects.map Effect.op

omit [DecidableEq T] in
theorem contents_concat (ops : List Op) (op : Op) :
    contents (ops ++ [op]) = Keyed.put Op.put (contents ops) op := by
  simp [contents]

/-- The entries hold what the operations leave; an entry with a null pointer is the one that a
thread has inserted and will assign; and an entry that a thread uses is there. -/
structure Content (s : System T) : Prop where
  value : ∀ n, (s.entries n).join = contents s.ops n
  whole : ∀ n, s.entries n = some none → ∃ t start l next, s.threads t = .assign start n l next
  used : ∀ t n, (s.threads t).uses = some n → (s.entries n).isSome

namespace Content

omit [DecidableEq T] in
theorem init : Content (.init : System T) where
  value := fun _ => rfl
  whole := fun _ h => by cases h
  used := fun _ _ h => by cases h

/-- A step that leaves the entries alone. -/
theorem move (h : Content s) (hthreads : s'.threads = Function.update s.threads t q)
    (hentries : s'.entries = s.entries) (hops : contents s'.ops = contents s.ops)
    (hp : ∀ start n l next, s.threads t ≠ .assign start n l next)
    (hq : ∀ n, q.uses = some n → (s.entries n).isSome) : Content s' where
  value := by
    intro n
    rw [hentries, hops, h.value n]
  whole := by
    intro n hn
    rw [hentries] at hn
    obtain ⟨u, start, l, next, hu⟩ := h.whole n hn
    refine ⟨u, start, l, next, ?_⟩
    rw [hthreads, Function.update_of_ne, hu]
    rintro rfl
    exact hp start n l next hu
  used := by
    intro u n hu
    rw [hthreads] at hu
    rw [hentries]
    by_cases hut : u = t
    · subst hut
      rw [Function.update_self] at hu
      exact hq n hu
    · rw [Function.update_of_ne hut] at hu
      exact h.used u n hu

/-- A step of a thread that holds the mutex alone, which changes the entry of `name`. -/
theorem set (h : Content s) (hlocked : Locked s)
    (hp : (s.threads t).mode = some .exclusive)
    (hthreads : s'.threads = Function.update s.threads t q) {entry : Option (Option Ref)}
    (hentries : s'.entries = Function.update s.entries name entry)
    (hops : contents s'.ops = Function.update (contents s.ops) name entry.join)
    (hwhole : entry = some none → ∃ start l next, q = .assign start name l next)
    (hq : ∀ n, q.uses = some n → n = name ∧ entry.isSome)
    (hassign : ∀ start n l next, s.threads t = .assign start n l next → n = name) :
    Content s' where
  value := by
    intro n
    rw [hentries, hops]
    by_cases hn : n = name
    · subst hn
      rw [Function.update_self, Function.update_self]
    · rw [Function.update_of_ne hn, Function.update_of_ne hn, h.value n]
  whole := by
    intro n hnull
    rw [hentries] at hnull
    by_cases hn : n = name
    · subst hn
      rw [Function.update_self] at hnull
      obtain ⟨start, l, next, hassigns⟩ := hwhole hnull
      refine ⟨t, start, l, next, ?_⟩
      rw [hthreads, Function.update_self, hassigns]
    · rw [Function.update_of_ne hn] at hnull
      obtain ⟨u, start, l, next, hu⟩ := h.whole n hnull
      refine ⟨u, start, l, next, ?_⟩
      rw [hthreads, Function.update_of_ne, hu]
      rintro rfl
      exact hn (hassign start n l next hu)
  used := by
    intro u n hu
    rw [hthreads] at hu
    by_cases hut : u = t
    · subst hut
      rw [Function.update_self] at hu
      obtain ⟨rfl, hentry⟩ := hq n hu
      rwa [hentries, Function.update_self]
    · rw [Function.update_of_ne hut] at hu
      exact absurd (hlocked.eq_of_exclusive hp (Point.mode_of_uses hu)) hut

theorem step (h : Content s) (hlocked : Locked s) (hs : Stepped s s') : Content s' := by
  have concat {t : T} {op : Op} : contents (s.effect t op).ops =
      Keyed.put Op.put (contents s.ops) op := by
    rw [← contents_concat]
    simp [System.ops, System.effect]
  cases hs with
  | setDefaultNull => exact h
  | getLogger t name hp | create t name hp | setDefault t l hp hl | removeLogger t name hp
  | lockShared t start name m hp hm | unlockShared t start name r hp
  | lock t start name l next m hp hm | unlockKeep t start name l hp | unlockStore t start name l hp
  | store t start name l hp | lockRemove t start name m hp hm | unlockRemove t start name hp =>
    exact h.move rfl rfl rfl (by rw [hp]; simp) (by simp [Point.uses])
  | findMissing t start name hp he | second t start name r hp he =>
    exact h.move rfl rfl concat (by rw [hp]; simp) (by simp [Point.uses])
  | findFound t start name hp he | removeFound t start name hp he =>
    refine h.move rfl rfl rfl (by rw [hp]; simp) fun n hn => ?_
    obtain rfl : name = n := Option.some.inj hn
    exact he
  | removeMissing t start name hp he =>
    refine h.move rfl rfl ?_ (by rw [hp]; simp) (by simp [Point.uses])
    refine concat.trans ?_
    have hnone := h.value name
    rw [he] at hnone
    exact Function.update_eq_self_iff.2 hnone
  | loadDefault t start name q hp hq =>
    refine h.move rfl rfl rfl (by rw [hp]; simp) fun n hn => ?_
    apply h.used t n
    rw [hp]
    rcases hq with rfl | rfl <;> exact hn
  | clear t start name hp =>
    refine h.move rfl rfl rfl (by rw [hp]; simp) fun n hn => ?_
    apply h.used t n
    rw [hp]
    exact hn
  | insert t start name l next hp =>
    refine h.set hlocked (by rw [hp]; rfl) rfl rfl ?_ (fun _ => ⟨start, l, next, rfl⟩)
      (fun n hn => ⟨(Option.some.inj hn).symm, rfl⟩) (by rw [hp]; simp)
    refine (Function.update_eq_self_iff.2 ?_).symm
    show _ = contents s.ops name
    rw [← h.value name]
    cases s.entries name <;> rfl
  | assign t start name l next hp =>
    refine h.set hlocked (by rw [hp]; rfl) rfl rfl concat (by simp) (by simp [Point.uses]) ?_
    rw [hp]
    rintro - n - - ⟨⟩
    rfl
  | erase t start name hp =>
    exact h.set hlocked (by rw [hp]; rfl) rfl rfl concat (by simp) (by simp [Point.uses])
      (by rw [hp]; simp)

end Content

/-! ## The names -/

/-- The logger that the call registers, and the name. -/
def Point.registers : Point → Option (Text × Ref)
  | .lock _ name l _ | .insert _ name l _ | .assign _ name l _ | .unlock _ name l _
  | .store _ name l => some (name, l)
  | _ => none

/-- Every logger is registered under its name. -/
structure Named (s : System T) : Prop where
  threads : ∀ t n l, (s.threads t).registers = some (n, l) → s.name l = n ∧ l < s.allocated
  ops : ∀ n l, .write n (some l) ∈ s.ops → s.name l = n ∧ l < s.allocated

namespace Named

omit [DecidableEq T] in
theorem init : Named (.init : System T) where
  threads := fun _ _ _ h => by cases h
  ops := fun _ _ h => by cases h

/-- A step of the thread `t` that registers no other logger. -/
theorem move (h : Named s) (hthreads : s'.threads = Function.update s.threads t q)
    (hname : s'.name = s.name) (hallocated : s'.allocated = s.allocated)
    (hq : ∀ n l, q.registers = some (n, l) → s.name l = n ∧ l < s.allocated)
    (hops : ∀ n l, .write n (some l) ∈ s'.ops →
      .write n (some l) ∈ s.ops ∨ s.name l = n ∧ l < s.allocated) : Named s' where
  threads := by
    intro u n l hu
    rw [hname, hallocated]
    rw [hthreads] at hu
    by_cases hut : u = t
    · subst hut
      rw [Function.update_self] at hu
      exact hq n l hu
    · rw [Function.update_of_ne hut] at hu
      exact h.threads u n l hu
  ops := by
    intro n l hl
    rw [hname, hallocated]
    exact (hops n l hl).elim (h.ops n l) id

theorem step (h : Named s) (hs : Stepped s s') : Named s' := by
  have same (n : Text) (l : Ref) (hl : .write n (some l) ∈ s.ops) :
      .write n (some l) ∈ s.ops ∨ s.name l = n ∧ l < s.allocated := .inl hl
  have effect {t : T} {op : Op} (hop : ∀ n l, op = .write n (some l) →
      s.name l = n ∧ l < s.allocated) (n : Text) (l : Ref)
      (hl : .write n (some l) ∈ (s.effect t op).ops) :
      .write n (some l) ∈ s.ops ∨ s.name l = n ∧ l < s.allocated := by
    rcases List.mem_append.1 (show _ ∈ s.ops ++ [op] by
      simpa [System.ops, System.effect] using hl) with hold | hnew
    · exact .inl hold
    · exact .inr (hop n l (List.mem_singleton.1 hnew).symm)
  cases hs with
  | setDefaultNull => exact h
  | create t name hp =>
    have hne {l : Ref} (hl : l < s.allocated) :
        Function.update s.name s.allocated name l = s.name l := Function.update_of_ne hl.ne ..
    have hold {n : Text} {l : Ref} (hl : s.name l = n ∧ l < s.allocated) :
        Function.update s.name s.allocated name l = n ∧ l < s.allocated + 1 :=
      ⟨(hne hl.2).trans hl.1, Nat.lt_succ_of_lt hl.2⟩
    refine ⟨fun u n l hu => ?_, fun n l hl => hold (h.ops n l hl)⟩
    by_cases hut : u = t
    · subst hut
      have hq := (congrArg Point.registers
        (Function.update_self (f := s.threads) u _)).symm.trans hu
      obtain ⟨rfl, rfl⟩ := Prod.mk.inj (Option.some.inj hq)
      exact ⟨Function.update_self .., Nat.lt_succ_self _⟩
    · have hq := (congrArg Point.registers (Function.update_of_ne hut _ s.threads)).symm.trans hu
      exact hold (h.threads u n l hq)
  | setDefault t l hp hl =>
    refine h.move rfl rfl rfl (fun n r hq => ?_) same
    obtain ⟨rfl, rfl⟩ := Prod.mk.inj (Option.some.inj hq)
    exact ⟨rfl, hl⟩
  | getLogger t name hp | removeLogger t name hp | lockShared t start name m hp hm
  | findFound t start name hp he | unlockShared t start name r hp
  | unlockKeep t start name l hp | store t start name l hp | lockRemove t start name m hp hm
  | removeFound t start name hp he | clear t start name hp | unlockRemove t start name hp =>
    exact h.move rfl rfl rfl (by simp [Point.registers]) same
  | loadDefault t start name q hp hq =>
    exact h.move rfl rfl rfl (by rcases hq with rfl | rfl <;> simp [Point.registers]) same
  | findMissing t start name hp he | second t start name r hp he
  | removeMissing t start name hp he | erase t start name hp =>
    exact h.move rfl rfl rfl (by simp [Point.registers]) (effect (by simp))
  | lock t start name l next m hp hm | insert t start name l next hp
  | unlockStore t start name l hp =>
    exact h.move rfl rfl rfl (fun n r hq => h.threads t n r (hp ▸ hq)) same
  | assign t start name l next hp =>
    refine h.move rfl rfl rfl (fun n r hq => h.threads t n r (hp ▸ hq)) (effect fun n r hop => ?_)
    obtain ⟨rfl, rfl⟩ : name = n ∧ l = r := by simpa using hop
    exact h.threads t name l (hp ▸ rfl)

end Named

/-! ## The history -/

/-- How many operations had taken effect when the call began. -/
def Point.start : Point → ℕ
  | .idle => 0
  | .lockShared start _ | .find start _ | .second start _ | .unlockShared start _ _
  | .lock start _ _ _ | .insert start _ _ _ | .assign start _ _ _ | .unlock start _ _ _
  | .store start _ _ | .lockRemove start _ | .findRemove start _ | .loadDefault start _
  | .clear start _ | .erase start _ | .unlockRemove start _ => start

/-- The operation of the call, when it has taken effect. -/
def Point.done : Point → Option Op
  | .unlockShared _ name result => some (.find name result)
  | .unlock _ name l _ | .store _ name l => some (.write name (some l))
  | .unlockRemove _ name => some (.write name none)
  | _ => none

/-- What a step can do to the history: nothing, an operation takes effect, or a call returns. -/
inductive Recorded (s s' : System T) : Prop
  | quiet (t : T) (q : Point) (hthreads : s'.threads = Function.update s.threads t q)
    (heffects : s'.effects = s.effects) (hreturned : s'.returned = s.returned)
    (hdone : q.done = (s.threads t).done)
    (hstart : q.start = (s.threads t).start ∨ s.threads t = .idle ∧ q.start = s.effects.length)
  | effect (t : T) (q : Point) (op : Op) (hthreads : s'.threads = Function.update s.threads t q)
    (heffects : s'.effects = s.effects ++ [⟨t, op⟩]) (hreturned : s'.returned = s.returned)
    (hold : (s.threads t).done = none) (hnew : q.done = some op)
    (hstart : q.start = (s.threads t).start)
    (hlegal : ∀ n result, op = .find n result → contents s.ops n = result)
  | finish (t : T) (op : Op) (hthreads : s'.threads = Function.update s.threads t .idle)
    (heffects : s'.effects = s.effects)
    (hreturned : s'.returned =
      s.returned ++ [⟨t, (s.threads t).start, s.effects.length, op⟩])
    (hdone : (s.threads t).done = some op)

theorem Content.recorded (h : Content s) (hs : Stepped s s') : Recorded s s' := by
  cases hs with
  | setDefaultNull t hp =>
    exact .quiet t _ (Function.update_eq_self t s.threads).symm rfl rfl rfl (.inl rfl)
  | getLogger t name hp | create t name hp | setDefault t l hp hl | removeLogger t name hp =>
    exact .quiet t _ rfl rfl rfl (by rw [hp]; rfl) (.inr ⟨hp, rfl⟩)
  | lockShared t start name m hp hm | findFound t start name hp he
  | lock t start name l next m hp hm | insert t start name l next hp
  | unlockStore t start name l hp | lockRemove t start name m hp hm
  | removeFound t start name hp he | clear t start name hp =>
    exact .quiet t _ rfl rfl rfl (by rw [hp]; rfl) (.inl (by rw [hp]; rfl))
  | loadDefault t start name q hp hq =>
    exact .quiet t q rfl rfl rfl (by rw [hp]; rcases hq with rfl | rfl <;> rfl)
      (.inl (by rw [hp]; rcases hq with rfl | rfl <;> rfl))
  | findMissing t start name hp he | second t start name r hp he =>
    refine .effect t _ _ rfl rfl rfl (by rw [hp]; rfl) rfl (by rw [hp]; rfl) ?_
    rintro n result ⟨⟩
    rw [← h.value, he]
    rfl
  | assign t start name l next hp | removeMissing t start name hp he | erase t start name hp =>
    exact .effect t _ _ rfl rfl rfl (by rw [hp]; rfl) rfl (by rw [hp]; rfl) (by simp)
  | unlockShared t start name r hp | unlockKeep t start name l hp | store t start name l hp
  | unlockRemove t start name hp =>
    exact .finish t _ rfl rfl (by rw [hp]; rfl) (by rw [hp]; rfl)

/-- Each operation takes effect once, in its call, and each lookup finds what the operations before
it leave. -/
structure History (s : System T) : Prop where
  legal : ∀ k t n result, s.effects[k]? = some ⟨t, .find n result⟩ →
    contents ((s.effects.take k).map Effect.op) n = result
  started : ∀ t, (s.threads t).start ≤ s.effects.length
  done : ∀ t op, (s.threads t).done = some op →
    ∃ k, (s.threads t).start ≤ k ∧ s.effects[k]? = some ⟨t, op⟩
  returned : ∀ c ∈ s.returned, ∃ k, c.start ≤ k ∧ k < c.stop ∧
    s.effects[k]? = some ⟨c.thread, c.op⟩
  once : ∀ t, (s.effects.filter (·.thread = t)).map Effect.op =
    (s.returned.filter (·.thread = t)).map Returned.op ++ (s.threads t).done.toList

namespace History

theorem init : History (.init : System T) where
  legal := fun k _ _ _ h => by cases k <;> cases h
  started := fun _ => le_rfl
  done := fun _ _ h => by cases h
  returned := fun _ h => by cases h
  once := fun _ => rfl

omit [DecidableEq T] in
theorem getElem_append {effects : List (Effect T)} {e e' : Effect T} {k : ℕ}
    (h : effects[k]? = some e) : (effects ++ [e'])[k]? = some e := by
  rw [List.getElem?_append_left (List.getElem?_eq_some_iff.1 h).1, h]

theorem quiet (h : History s) (hthreads : s'.threads = Function.update s.threads t q)
    (heffects : s'.effects = s.effects) (hreturned : s'.returned = s.returned)
    (hdone : q.done = (s.threads t).done)
    (hstart : q.start = (s.threads t).start ∨ s.threads t = .idle ∧ q.start = s.effects.length) :
    History s' := by
  refine ⟨?_, fun u => ?_, fun u op hu => ?_, ?_, fun u => ?_⟩
  · rw [heffects]
    exact h.legal
  · rw [hthreads, heffects]
    by_cases hut : u = t
    · subst hut
      rw [Function.update_self]
      rcases hstart with hq | ⟨-, hq⟩
      · exact hq ▸ h.started u
      · exact hq.le
    · rw [Function.update_of_ne hut]
      exact h.started u
  · rw [hthreads] at hu ⊢
    rw [heffects]
    by_cases hut : u = t
    · subst hut
      rw [Function.update_self] at hu ⊢
      rw [hdone] at hu
      rcases hstart with hq | ⟨hidle, -⟩
      · exact hq ▸ h.done u op hu
      · rw [hidle] at hu
        cases hu
    · rw [Function.update_of_ne hut] at hu ⊢
      exact h.done u op hu
  · rw [hreturned, heffects]
    exact h.returned
  · rw [hreturned, heffects, hthreads, h.once u]
    by_cases hut : u = t
    · subst hut
      rw [Function.update_self, hdone]
    · rw [Function.update_of_ne hut]

theorem effect (h : History s) {op : Op}
    (hthreads : s'.threads = Function.update s.threads t q)
    (heffects : s'.effects = s.effects ++ [⟨t, op⟩]) (hreturned : s'.returned = s.returned)
    (hold : (s.threads t).done = none) (hnew : q.done = some op)
    (hstart : q.start = (s.threads t).start)
    (hlegal : ∀ n result, op = .find n result → contents s.ops n = result) : History s' := by
  refine ⟨fun k u n result hk => ?_, fun u => ?_, fun u op' hu => ?_, fun c hc => ?_, fun u => ?_⟩
  · rw [heffects] at hk ⊢
    rcases Nat.lt_or_ge k s.effects.length with hlt | hge
    · rw [List.getElem?_append_left hlt] at hk
      rw [List.take_append_of_le_length hlt.le]
      exact h.legal k u n result hk
    · have hlast : k = s.effects.length := by
        have hlen := (List.getElem?_eq_some_iff.1 hk).1
        rw [List.length_append, List.length_singleton] at hlen
        omega
      subst hlast
      rw [List.getElem?_concat_length, Option.some.injEq, Effect.mk.injEq] at hk
      rw [List.take_left]
      exact hlegal n result hk.2
  · rw [hthreads, heffects, List.length_append, List.length_singleton]
    apply Nat.le_succ_of_le
    by_cases hut : u = t
    · subst hut
      rw [Function.update_self, hstart]
      exact h.started u
    · rw [Function.update_of_ne hut]
      exact h.started u
  · rw [hthreads] at hu ⊢
    rw [heffects]
    by_cases hut : u = t
    · subst hut
      rw [Function.update_self] at hu ⊢
      obtain rfl : op = op' := Option.some.inj (hnew.symm.trans hu)
      exact ⟨s.effects.length, hstart ▸ h.started u, List.getElem?_concat_length⟩
    · rw [Function.update_of_ne hut] at hu ⊢
      obtain ⟨k, hk, he⟩ := h.done u op' hu
      exact ⟨k, hk, getElem_append he⟩
  · rw [hreturned] at hc
    obtain ⟨k, hk, hlt, he⟩ := h.returned c hc
    exact ⟨k, hk, hlt, heffects ▸ getElem_append he⟩
  · rw [hreturned, heffects, hthreads, List.filter_append, List.map_append, h.once u]
    by_cases hut : u = t
    · subst hut
      simp [hold, hnew]
    · simp [Function.update_of_ne hut, Ne.symm hut]

theorem finish (h : History s) {op : Op}
    (hthreads : s'.threads = Function.update s.threads t .idle)
    (heffects : s'.effects = s.effects)
    (hreturned : s'.returned =
      s.returned ++ [⟨t, (s.threads t).start, s.effects.length, op⟩])
    (hdone : (s.threads t).done = some op) : History s' := by
  refine ⟨?_, fun u => ?_, fun u op' hu => ?_, fun c hc => ?_, fun u => ?_⟩
  · rw [heffects]
    exact h.legal
  · rw [hthreads, heffects]
    by_cases hut : u = t
    · subst hut
      rw [Function.update_self]
      exact Nat.zero_le _
    · rw [Function.update_of_ne hut]
      exact h.started u
  · rw [hthreads] at hu ⊢
    rw [heffects]
    by_cases hut : u = t
    · subst hut
      rw [Function.update_self] at hu
      cases hu
    · rw [Function.update_of_ne hut] at hu ⊢
      exact h.done u op' hu
  · rw [heffects]
    rw [hreturned] at hc
    rcases List.mem_append.1 hc with hold | hnew
    · exact h.returned c hold
    · obtain rfl := List.mem_singleton.1 hnew
      obtain ⟨k, hk, he⟩ := h.done t op hdone
      exact ⟨k, hk, (List.getElem?_eq_some_iff.1 he).1, he⟩
  · rw [hreturned, heffects, hthreads, List.filter_append, List.map_append, h.once u]
    by_cases hut : u = t
    · subst hut
      rw [Function.update_self, hdone]
      simp [Point.done]
    · simp [Function.update_of_ne hut, Ne.symm hut]

theorem step (h : History s) (hs : Recorded s s') : History s' := by
  cases hs with
  | quiet t q hthreads heffects hreturned hdone hstart =>
    exact h.quiet hthreads heffects hreturned hdone hstart
  | effect t q op hthreads heffects hreturned hold hnew hstart hlegal =>
    exact h.effect hthreads heffects hreturned hold hnew hstart hlegal
  | finish t op hthreads heffects hreturned hdone =>
    exact h.finish hthreads heffects hreturned hdone

end History

/-- What holds in every reachable state. -/
structure Linearized (s : System T) : Prop where
  locked : Locked s
  content : Content s
  named : Named s
  history : History s

namespace Linearized

theorem init : Linearized (.init : System T) := ⟨SharedMutex.Agrees.free, .init, .init, .init⟩

theorem step (h : Linearized s) (hs : Stepped s s') : Linearized s' :=
  ⟨h.locked.step hs, h.content.step h.locked hs, h.named.step hs,
    h.history.step (h.content.recorded hs)⟩

theorem of_reachable (h : (machine T).Reachable Machine.anyStep s) : Linearized s :=
  h.invariant init fun _ _ _ hP _ hs => hP.step (.of_step hs)

end Linearized

end Steps

end Access

end Registry

end ZephyrLog
