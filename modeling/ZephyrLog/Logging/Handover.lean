import ZephyrLog.Logging.Ownership

/-!
# Handover of the default logger

While the program runs and a default logger is set, every logging call that passes its level check
adds its line once, to a logger that was the default between its start and its end (`Logged`).  With
`Shared` the destructor of that logger waits for the call, and a Safe logger has written all lines
added to it when its destructor has ended.
-/

namespace ZephyrLog

namespace Logging

variable {T : Type} {s s' : System T} {t u : T} {l : Ref} {c : LogCall T} {label : Label T}
variable {start stop : ℕ}

/-- The logger `l` was the default at a moment between `start` and `stop` stores of the default. -/
def System.WasDefault (s : System T) (start stop : ℕ) (l : Ref) : Prop :=
  ∃ m, start ≤ m ∧ m ≤ stop ∧ (s.stores.take m).getLast? = some l

/-- What was the default before stays so in a longer history. -/
theorem System.WasDefault.mono (h : s.WasDefault start stop l) (hstores : s.stores <+: s'.stores)
    (hstop : stop ≤ s.stores.length) {stop' : ℕ} (hle : stop ≤ stop') :
    s'.WasDefault start stop' l := by
  obtain ⟨m, hstart, hm, hl⟩ := h
  refine ⟨m, hstart, hm.trans hle, ?_⟩
  obtain ⟨rest, hrest⟩ := hstores
  rw [← hrest, List.take_append_of_le_length (hm.trans hstop), hl]

variable [DecidableEq T]

/-- The calls of `Logger::add` that the logging call `c` has made. -/
def System.addsOf (s : System T) (c : LogCall T) : List (Added T) := s.added.filter (·.call = c)

/-- The line of `c` was added once, to a logger that was the default between the start of `c` and
`stop`. -/
def System.AddedOnce (s : System T) (c : LogCall T) (stop : ℕ) : Prop :=
  ∃ l, s.addsOf c = [⟨c, l⟩] ∧ s.WasDefault c.start stop l

/-- The call `c` of thread `t` has not added its line. -/
structure Pending (s : System T) (t : T) (c : LogCall T) : Prop where
  thread : c.thread = t
  number : c.number < s.calls
  start : c.start ≤ s.stores.length
  default : s.globals.defaultLogger ≠ none
  adds : s.addsOf c = []

/-- What holds of the logging call that thread `t` is in. -/
def InCall (s : System T) (t : T) : Prog T → Prop
  | .loadLevel c => Pending s t c
  | .readLevel c _ => Pending s t c
  | .readGlobalLevel c => Pending s t c
  | .loadLogger c => Pending s t c
  | .add c l => Pending s t c ∧ s.WasDefault c.start s.stores.length l
  | .adding c _ => c.thread = t ∧ s.AddedOnce c s.stores.length
  | .finish c => c.thread = t ∧ s.AddedOnce c s.stores.length
  | _ => True

/-- The state of all logging calls. -/
structure Logged (s : System T) : Prop where
  numbers : ∀ e ∈ s.added, e.call.number < s.calls
  default : s.stores.getLast? = s.globals.defaultLogger
  threads : ∀ t, InCall s t (s.threads t).prog
  returned : ∀ r ∈ s.returned, r.stop ≤ s.stores.length ∧ s.AddedOnce r.call r.stop

/-- The program has not begun to exit, and a default logger is set when a logging call begins. -/
def Running (s : System T) : Label T → Prop
  | .log _ _ _ => s.globals.defaultLogger ≠ none
  | .dropEntry _ _ => False
  | .dropDefault _ => False
  | _ => True

instance (s : System T) : (label : Label T) → Decidable (Running s label)
  | .log _ _ _ => inferInstanceAs (Decidable (s.globals.defaultLogger ≠ none))
  | .dropEntry _ _ | .dropDefault _ => isFalse id
  | .setLogLevel _ _ | .makeDefault _ _ | .create _ _ _ | .setDefaultLogger _ _
  | .getDefaultLogger _ | .drop _ _ | .run _ | .badAlloc _ | .work _ => isTrue trivial

/-! ## Calls stay in order -/

/-- The history of `s'` continues that of `s`, without a line of a call that satisfies `P`. -/
structure Continues (s s' : System T) (P : LogCall T → Prop) : Prop where
  calls : s.calls ≤ s'.calls
  stores : s.stores <+: s'.stores
  default : s.globals.defaultLogger ≠ none → s'.globals.defaultLogger ≠ none
  adds : ∀ c, P c → s'.addsOf c = s.addsOf c

namespace Continues

variable {P : LogCall T → Prop}

theorem of_eq (hcalls : s.calls ≤ s'.calls) (hstores : s'.stores = s.stores)
    (hdefault : s'.globals.defaultLogger = s.globals.defaultLogger) (hadded : s'.added = s.added) :
    Continues s s' P where
  calls := hcalls
  stores := hstores ▸ List.prefix_rfl
  default := fun h => hdefault ▸ h
  adds := fun c _ => by rw [System.addsOf, hadded, System.addsOf]

variable (h : Continues s s' P)
include h

theorem addedOnce {stop' : ℕ} (ha : s.AddedOnce c stop) (hP : P c) (hstop : stop ≤ s.stores.length)
    (hle : stop ≤ stop') : s'.AddedOnce c stop' := by
  obtain ⟨l, hadds, hw⟩ := ha
  exact ⟨l, (h.adds c hP).trans hadds, hw.mono h.stores hstop hle⟩

theorem pending (hp : Pending s u c) (hP : P c) : Pending s' u c where
  thread := hp.thread
  number := hp.number.trans_le h.calls
  start := hp.start.trans h.stores.length_le
  default := h.default hp.default
  adds := (h.adds c hP).trans hp.adds

theorem inCall {p : Prog T} (hP : ∀ c, c.thread = u → P c) (hin : InCall s u p) :
    InCall s' u p := by
  cases p with
  | loadLevel c | readLevel c l | readGlobalLevel c | loadLogger c =>
    exact h.pending hin (hP c hin.thread)
  | add c l =>
    exact ⟨h.pending hin.1 (hP c hin.1.thread),
      hin.2.mono h.stores le_rfl h.stores.length_le⟩
  | adding c l | finish c =>
    exact ⟨hin.1, h.addedOnce hin.2 (hP c hin.1) le_rfl h.stores.length_le⟩
  | _ => trivial

end Continues

namespace Logged

theorem init (content : Text → Option (List Byte)) : Logged (System.init content : System T) where
  numbers := fun _ h => by cases h
  default := rfl
  threads := fun _ => trivial
  returned := fun _ h => by cases h

/-- A step of the thread `t` that adds no line and ends no call. -/
theorem move (h : Logged s) {th : Thread T} (hc : Continues s s' fun _ => True)
    (hadded : s'.added = s.added) (hreturned : s'.returned = s.returned)
    (hdefault : s'.stores.getLast? = s'.globals.defaultLogger)
    (hthreads : s'.threads = Function.update s.threads t th) (hin : InCall s' t th.prog) :
    Logged s' where
  numbers := by
    rw [hadded]
    exact fun e he => (h.numbers e he).trans_le hc.calls
  default := hdefault
  threads := by
    intro u
    rw [hthreads]
    by_cases hu : u = t
    · subst hu
      rwa [Function.update_self]
    · rw [Function.update_of_ne hu]
      exact hc.inCall (fun _ _ => trivial) (h.threads u)
  returned := by
    rw [hreturned]
    intro r hr
    obtain ⟨hstop, honce⟩ := h.returned r hr
    exact ⟨hstop.trans hc.stores.length_le, hc.addedOnce honce trivial hstop le_rfl⟩

/-- A step of the thread `t` that leaves the history and the default logger alone. -/
theorem quiet (h : Logged s) {th : Thread T} (hcalls : s'.calls = s.calls)
    (hstores : s'.stores = s.stores)
    (hdefault : s'.globals.defaultLogger = s.globals.defaultLogger) (hadded : s'.added = s.added)
    (hreturned : s'.returned = s.returned)
    (hthreads : s'.threads = Function.update s.threads t th) (hin : InCall s t th.prog) :
    Logged s' := by
  have hc : Continues s s' fun _ => True := .of_eq hcalls.ge hstores hdefault hadded
  refine h.move hc hadded hreturned ?_ hthreads (hc.inCall (fun _ _ => trivial) hin)
  rw [hstores, hdefault, h.default]

/-- A step that leaves the threads alone as well. -/
theorem same (h : Logged s) (hcalls : s'.calls = s.calls) (hstores : s'.stores = s.stores)
    (hdefault : s'.globals.defaultLogger = s.globals.defaultLogger) (hadded : s'.added = s.added)
    (hreturned : s'.returned = s.returned) (hthreads : s'.threads = s.threads) : Logged s' := by
  have hc : Continues s s' fun _ => True := .of_eq hcalls.ge hstores hdefault hadded
  refine ⟨?_, ?_, fun u => ?_, ?_⟩
  · rw [hadded, hcalls]
    exact h.numbers
  · rw [hstores, hdefault, h.default]
  · rw [hthreads]
    exact hc.inCall (fun _ _ => trivial) (h.threads u)
  · rw [hreturned]
    intro r hr
    obtain ⟨hstop, honce⟩ := h.returned r hr
    exact ⟨hstores ▸ hstop, hc.addedOnce honce trivial hstop le_rfl⟩

theorem log (h : Logged s) (level : LogLevel) (line : Text)
    (hset : s.globals.defaultLogger ≠ none) :
    Logged { s.goto t (.loadLevel ⟨t, s.calls, level, line, s.stores.length⟩) [] with
      calls := s.calls + 1 } := by
  refine h.move (t := t) (.of_eq (Nat.le_succ _) rfl rfl rfl) rfl rfl h.default rfl
    ⟨rfl, Nat.lt_succ_self _, le_rfl, hset, ?_⟩
  refine List.filter_eq_nil_iff.2 fun e he heq => ?_
  have hlt := h.numbers e he
  rw [of_decide_eq_true heq] at hlt
  exact lt_irrefl _ hlt

theorem inCall_of_at (h : Logged s) {p : Prog T} (hat : s.At t p) : InCall s t p :=
  hat.2 ▸ h.threads t

theorem inCall_checked (hp : Pending s t c) (level : LogLevel) :
    InCall s t (System.checked c level) := by
  unfold System.checked
  split
  · exact hp
  · trivial

theorem loadLogger (h : Logged s) (hp : Pending s t c) :
    InCall s t (match s.globals.defaultLogger with
      | some l => .add c l
      | none => .finish c) := by
  cases hd : s.globals.defaultLogger with
  | none => exact absurd hd hp.default
  | some l =>
    refine ⟨hp, s.stores.length, hp.start, le_rfl, ?_⟩
    rw [List.take_length, h.default, hd]

theorem add (h : Logged s) {m : Impl T} (hp : Pending s t c)
    (hw : s.WasDefault c.start s.stores.length l) :
    Logged { (s.setImpl l m).goto t (.adding c l) [] with added := s.added ++ [⟨c, l⟩] } := by
  generalize hs' : ({ (s.setImpl l m).goto t (.adding c l) [] with
    added := s.added ++ [⟨c, l⟩] } : System T) = s'
  have hadded : s'.added = s.added ++ [⟨c, l⟩] := hs' ▸ rfl
  have hthreads : s'.threads =
      Function.update s.threads t { s.threads t with cleanup := [], prog := .adding c l } :=
    hs' ▸ rfl
  have hcalls : s'.calls = s.calls := hs' ▸ rfl
  have hstores : s'.stores = s.stores := hs' ▸ rfl
  have hdefault : s'.globals = s.globals := hs' ▸ rfl
  have hreturned : s'.returned = s.returned := hs' ▸ rfl
  have hc : Continues s s' fun c' => c' ≠ c := by
    refine ⟨hcalls.ge, hstores ▸ List.prefix_rfl, fun hd => hdefault ▸ hd, fun c' hne => ?_⟩
    rw [System.addsOf, hadded, List.filter_append, System.addsOf]
    simp [Ne.symm hne]
  refine ⟨?_, ?_, fun u => ?_, ?_⟩
  · rw [hadded, hcalls]
    intro e he
    rcases List.mem_append.1 he with hold | hnew
    · exact h.numbers e hold
    · rw [List.mem_singleton.1 hnew]
      exact hp.number
  · rw [hstores, hdefault, h.default]
  · rw [hthreads]
    by_cases hu : u = t
    · subst hu
      rw [Function.update_self]
      refine ⟨hp.thread, l, ?_, hw.mono hc.stores le_rfl hc.stores.length_le⟩
      have hold : s.added.filter (·.call = c) = [] := hp.adds
      rw [System.addsOf, hadded, List.filter_append, hold]
      simp
    · rw [Function.update_of_ne hu]
      refine hc.inCall (fun c' hc' => ?_) (h.threads u)
      rintro rfl
      exact hu (hc'.symm.trans hp.thread)
  · rw [hreturned]
    intro r hr
    obtain ⟨hstop, honce⟩ := h.returned r hr
    refine ⟨hstores ▸ hstop, hc.addedOnce honce ?_ hstop le_rfl⟩
    rintro rfl
    obtain ⟨l', hadds, -⟩ := honce
    rw [hp.adds] at hadds
    cases hadds

theorem finish (h : Logged s) (hat : s.At t (.finish c)) :
    Logged { s.goto t .idle [] with returned := s.returned ++ [⟨c, s.stores.length⟩] } := by
  have hin : c.thread = t ∧ s.AddedOnce c s.stores.length := h.inCall_of_at hat
  have hquiet : Logged (s.goto t .idle []) := h.quiet rfl rfl rfl rfl rfl rfl trivial
  refine ⟨hquiet.numbers, hquiet.default, fun u => ?_, fun r hr => ?_⟩
  · apply Continues.inCall (P := fun _ => True) _ (fun _ _ => trivial) (hquiet.threads u)
    exact .of_eq le_rfl rfl rfl rfl
  · rcases List.mem_append.1 hr with hold | hnew
    · exact hquiet.returned r hold
    · rw [List.mem_singleton.1 hnew]
      exact ⟨le_rfl, hin.2⟩

theorem store (h : Logged s) :
    Logged { s.goto t .idle s.globals.defaultLogger.toList with
      globals := s.globals.storeDefault (some l)
      stores := s.stores ++ [l] } := by
  refine h.move (t := t) ?_ rfl rfl ?_ rfl trivial
  · exact ⟨le_rfl, List.prefix_append _ _, fun _ => Option.some_ne_none l, fun _ _ => rfl⟩
  · exact List.getLast?_concat

theorem step (h : Logged s) (hg : Running s label) (hs : Stepped s label s') : Logged s' := by
  cases hs with
  | log t level line hi => exact h.log level line hg
  | setLogLevel t level hi | makeDefault t c hi | create t name c hi | setDefault t l hi hl
  | getDefault t hi | drop t l hi hl =>
    exact h.quiet rfl rfl rfl rfl rfl rfl trivial
  | setDefaultNull t hi => exact h
  | dropEntry t name l hi hl => exact hg.elim
  | dropDefault t l hi hl => exact hg.elim
  | release t l rest hc ho | releaseLast t l rest hc ho | destroy t l rest m hc hm
  | shutDown t l rest m hc hm | join t l rest m hc hm =>
    exact h.quiet rfl rfl rfl rfl rfl rfl (h.threads t)
  | loadLevel t c hp =>
    refine h.quiet rfl rfl rfl rfl rfl rfl ?_
    have hin : Pending s t c := h.inCall_of_at hp
    show InCall s t (match s.globals.defaultLogger with
      | some l => .readLevel c l
      | none => .readGlobalLevel c)
    split
    · exact hin
    · exact hin
  | readLevel t c l hp =>
    exact h.quiet rfl rfl rfl rfl rfl rfl (inCall_checked (h.inCall_of_at hp) _)
  | readGlobalLevel t c hp =>
    exact h.quiet rfl rfl rfl rfl rfl rfl (inCall_checked (h.inCall_of_at hp) _)
  | loadLogger t c hp =>
    exact h.quiet rfl rfl rfl rfl rfl rfl (h.loadLogger (h.inCall_of_at hp))
  | add t c l m hp hm =>
    obtain ⟨hpending, hw⟩ := h.inCall_of_at hp
    exact h.add hpending hw
  | adding t c l m hp hm ha => exact h.same rfl rfl rfl rfl rfl rfl
  | addReturned t c l m hp hm ha =>
    have hin : InCall s t (.adding c l) := h.inCall_of_at hp
    exact h.quiet rfl rfl rfl rfl rfl rfl hin
  | finish t c hp => exact h.finish hp
  | loadDefault t level hp =>
    refine h.quiet rfl rfl rfl rfl rfl rfl ?_
    show InCall s t (match s.globals.defaultLogger with
      | some l => .setLevel level l
      | none => .idle)
    split <;> trivial
  | setLevel t level l hp | construct t l next m hp hm | register t l next hp hm
  | unlockStore t l hp | unlockKeep t l hp =>
    exact h.quiet rfl rfl rfl rfl rfl rfl trivial
  | store t l hp => exact h.store
  | badAlloc t c l m hp hm | work l m hl hm hp | write l m line hl hm hp =>
    exact h.same rfl rfl rfl rfl rfl rfl

end Logged

/-! ## What a Safe logger has accepted -/

/-- Only `add` adds a line. -/
theorem added_of_stepped (hs : Stepped s label s') :
    s'.added = s.added ∨ ∃ t c l, s.At t (.add c l) ∧ s'.added = s.added ++ [⟨c, l⟩] := by
  cases hs with
  | add t c l m h hm => exact .inr ⟨t, c, l, h, rfl⟩
  | _ => exact .inl rfl

/-- The calls that a Safe logger's queue has seen are those whose lines were added to it. -/
structure Accepted (s : System T) : Prop where
  loggers : ∀ e ∈ s.added, e.logger < s.allocated
  lines : ∀ l a, (s.loggers l).impl = .safe a →
    a.buffer.begun.map QueueBuffer.Push.line = (s.addedTo l).map LogCall.line

namespace Accepted

omit [DecidableEq T] in
theorem init (content : Text → Option (List Byte)) : Accepted (System.init content : System T) where
  loggers := fun _ he => by cases he
  lines := by
    rintro l a ha
    cases ha
    rfl

omit [DecidableEq T] in
theorem addedTo_fresh (h : Accepted s) : s.addedTo s.allocated = [] := by
  refine List.map_eq_nil_iff.2 (List.filter_eq_nil_iff.2 fun e he heq => ?_)
  apply absurd (h.loggers e he)
  rw [of_decide_eq_true heq]
  exact lt_irrefl _

variable (h : Accepted s) (hshared : Shared s) (hs : Stepped s label s')
include h hshared hs

theorem loggers_step : ∀ e ∈ s'.added, e.logger < s'.allocated := by
  have hle := (Effect.of_stepped hshared.named hs).allocated
  intro e he
  apply Nat.lt_of_lt_of_le _ hle
  rcases added_of_stepped hs with hadded | ⟨t, c, l, hat, hadded⟩
  · rw [hadded] at he
    exact h.loggers e he
  · rw [hadded] at he
    rcases List.mem_append.1 he with hold | hnew
    · exact h.loggers e hold
    · rw [List.mem_singleton.1 hnew]
      exact hshared.fresh l (.of_at hat (List.mem_singleton_self l))

omit hshared in
theorem lines_step {a' : AsyncLogger.Safe.System T Text} (ha : (s'.loggers l).impl = .safe a') :
    a'.buffer.begun.map QueueBuffer.Push.line = (s'.addedTo l).map LogCall.line := by
  rcases logger_cases hs l with ⟨himpl, hadded⟩ | ⟨il, hmakes, hil⟩ | ⟨rfl, -, hadded, n, hnew⟩
  · rw [hadded]
    exact h.lines l a' (himpl ▸ ha)
  · rw [ha] at hil
    obtain ⟨a, hsafe, hstep⟩ := Impl.safe_of_step hil
    have hold := h.lines l a hsafe
    by_cases hadd : ∃ t line, il = .add t line
    · obtain ⟨t, line, rfl⟩ := hadd
      obtain ⟨c, -, -, rfl, hadded⟩ := hmakes
      rw [AsyncLogger.Safe.begun_of_add hstep, hadded, List.map_append, List.map_append, hold]
      rfl
    · simp only [not_exists] at hadd
      have hadded : s'.addedTo l = s.addedTo l := by
        cases il with
        | add t line => exact absurd rfl (hadd t line)
        | produce t | badAlloc t | destroy => exact hmakes.2
        | work | own => exact hmakes
      rw [AsyncLogger.Safe.begun_of_step hstep hadd, hadded, hold]
  · rw [System.addedTo_congr hadded, h.addedTo_fresh]
    rw [hnew] at ha
    cases n with
    | none =>
      cases ha
      rfl
    | some bufferSize => cases ha

theorem step : Accepted s' where
  loggers := h.loggers_step hshared hs
  lines := fun _ _ ha => h.lines_step hs ha

end Accepted

theorem Accepted.of_reachable [Fintype T] {content : Text → Option (List Byte)}
    {guard : System T → Label T → Prop} (h : (machine T content).Reachable guard s) :
    Accepted s := by
  induction h with
  | refl => exact .init content
  | tail label hreach hg hs ih => exact ih.step (.of_reachable hreach) (.of_step hs)

theorem Logged.of_reachable [Fintype T] {content : Text → Option (List Byte)}
    (h : (machine T content).Reachable Running s) : Logged s :=
  h.invariant (.init content) fun _ _ _ hP hg hs => hP.step hg (.of_step hs)

/-- A Safe logger whose destructor has ended has written the lines added to it. -/
theorem written_perm_addedTo [Fintype T] (hcard : Fintype.card T + Buffer.size < 2 ^ 32)
    {content : Text → Option (List Byte)} {guard : System T → Label T → Prop}
    (h : (machine T content).Reachable guard s) {a : AsyncLogger.Safe.System T Text}
    (ha : (s.loggers l).impl = .safe a) (hjoined : a.owner = .joined) :
    (a.written.map (cellText QueueBuffer.Push.line)).Perm ((s.addedTo l).map LogCall.line) := by
  have hruns := (Shared.of_reachable h).runs l a ha
  have hhistory := (AsyncLogger.Safe.protocol hcard hruns).history
  obtain ⟨-, hwritten, hclaims⟩ :=
    AsyncLogger.Safe.written_of_ended hcard hruns (AsyncLogger.ended_of_joined hruns hjoined)
  have hperm : a.buffer.claims.Perm a.buffer.begun :=
    (List.perm_ext_iff_of_nodup hhistory.nodup
      (QueueBuffer.begun_nodup (AsyncLogger.Safe.queue_reaches hruns))).2 hclaims
  rw [← (Accepted.of_reachable h).lines l a ha, hwritten, List.map_map]
  exact hperm.map QueueBuffer.Push.line

/-- Handover of the default logger: a logging call that passes its level check adds its line once,
to a logger that was the default during the call; the destructor of a logger begins only when nobody
is inside its `add` or about to call it; and a Safe logger has written every line added to it when
its destructor has ended. -/
theorem handover [Fintype T] {content : Text → Option (List Byte)}
    (h : (machine T content).Reachable Running s) :
    (∀ r ∈ s.returned, s.AddedOnce r.call r.stop) ∧
    (∀ l, (s.loggers l).impl.Ending →
      ∀ t, ¬ (s.loggers l).impl.Adding t ∧ ∀ c, ¬ s.At t (.add c l) ∧ ¬ s.At t (.adding c l)) ∧
    (Fintype.card T + Buffer.size < 2 ^ 32 → ∀ l a, (s.loggers l).impl = .safe a →
      a.owner = .joined →
      (a.written.map (cellText QueueBuffer.Push.line)).Perm ((s.addedTo l).map LogCall.line)) := by
  have hshared := Shared.of_reachable h
  refine ⟨fun r hr => ((Logged.of_reachable h).returned r hr).2, fun l hending t => ?_,
    fun hcard l a ha hjoined => written_perm_addedTo hcard h ha hjoined⟩
  have hdead := hshared.dead l (.inl hending)
  refine ⟨fun hadding => ?_, fun c => ⟨fun hat => ?_, fun hat => ?_⟩⟩
  · obtain ⟨c, hat⟩ := hshared.busy l t hadding
    exact hdead (.of_at hat (List.mem_singleton_self l))
  · exact hdead (.of_at hat (List.mem_singleton_self l))
  · exact hdead (.of_at hat (List.mem_singleton_self l))

/-- A Safe logger that is replaced while its worker has not seen the line added to it. -/
theorem handover_replaced : ∃ (s : System Unit) (a : AsyncLogger.Safe.System Unit Text),
    (s.loggers 0).impl = .safe a ∧ a.owner = .joined ∧ s.returned ≠ [] ∧
      (∀ r ∈ s.returned, s.AddedOnce r.call r.stop) ∧
      (a.written.map (cellText QueueBuffer.Push.line)).Perm [ascii "x"] := by
  let makeDefault : Label Unit := .makeDefault () ⟨none, ascii "d/", ascii "f", 1, false⟩
  obtain ⟨s, hs, hfin⟩ := Option.map_eq_some_iff.1 (show
    (((machine Unit fun _ => none).restrict Running).exec (.init fun _ => none)
      ([makeDefault] ++ List.replicate 4 (.run ()) ++ [.log () .info (ascii "x")] ++
        List.replicate 12 (.run ()) ++ [makeDefault] ++ List.replicate 8 (.run ()) ++
        List.replicate 11 (.work 0) ++ [.run ()])).map
      (fun s => ((s.addedTo 0).map LogCall.line, s.returned.length, (s.loggers 0).impl.owner,
        match (s.loggers 0).impl with
          | .safe _ => true
          | .quick _ => false)) = some ([ascii "x"], 1, .joined, true) from rfl)
  simp only [Prod.mk.injEq] at hfin
  obtain ⟨hadded, hreturned, howner, hsafe⟩ := hfin
  obtain ⟨hreturns, -, hwritten⟩ := handover (.of_restrict hs)
  cases hl : (s.loggers 0).impl with
  | quick q => simp [hl] at hsafe
  | safe a =>
    rw [hl] at howner
    refine ⟨s, a, hl, howner, ?_, hreturns, ?_⟩
    · rintro hnil
      simp [hnil] at hreturned
    · rw [← hadded]
      exact hwritten (by decide) 0 a hl howner

end Logging

end ZephyrLog
