import ZephyrLog.FileWriter.Retention
import ZephyrLog.Lib.Grouping
import ZephyrLog.Logging.Destruction
import ZephyrLog.Logging.Handover

/-!
# What is in the files in the end

Every logger has a writer of its own, and two writers can have the same file: `initializeSafe` opens
the first file of the new logger with `trunc` while the old logger still writes to its own.  A step
is `Harmless` if the file it opens is spare and its line goes to the end of a file.  In a run of
such steps `Persisted` holds: the lines that Safe loggers have written are in the files, each at a
place of its own.
-/

namespace ZephyrLog

namespace Logging

variable {T : Type} {s s' : System T} {t : T} {l : Ref} {label : Label T}

namespace Impl

/-- The lines passed to `FileWriter::write`; of a Quick logger they are not kept. -/
def written : Impl T → List Text
  | .quick _ => []
  | .safe a => a.written.map (cellText QueueBuffer.Push.line)

theorem written_new (bufferSize : Option RingSize) : (new T bufferSize).written = [] := by
  cases bufferSize <;> rfl

variable [DecidableEq T] {m m' : Impl T} {il : AsyncLogger.Label T Text}

/-- The worker writes its pending line. -/
theorem written_of_step (h : m.step il = some m') :
    m'.written = m.written ∨
      ∃ line, il = .work ∧ m.pending = some line ∧ m'.written = m.written ++ [line] := by
  cases m' with
  | quick q' =>
    cases m with
    | quick q => exact .inl rfl
    | safe a =>
      obtain ⟨a', -, heq⟩ := Option.map_eq_some_iff.1 h
      cases heq
  | safe a' =>
    obtain ⟨a, rfl, ha⟩ := safe_of_step h
    rcases AsyncLogger.written_of_step ha with ⟨hsame, -⟩ | ⟨rfl, ⟨loop, hworker⟩, hwritten⟩
    · exact .inl (congrArg (List.map _) hsame)
    · refine .inr ⟨cellText QueueBuffer.Push.line a.buffer.logline, rfl, ?_, ?_⟩
      · simp only [pending, hworker]
      · simp only [written, hwritten, List.map_append, List.map_singleton]
        rfl

theorem written_of_not_pending (h : m.step il = some m') (hl : il ≠ .work ∨ m.pending = none) :
    m'.written = m.written := by
  apply (written_of_step h).resolve_right
  rintro ⟨line, hwork, hpending, -⟩
  rcases hl with hne | hnone
  · exact hne hwork
  · rw [hnone] at hpending
    cases hpending

theorem joined_of_joining (h : m.step .own = some m') (ho : m.owner = .joining) :
    m'.owner = .joined := by
  rcases own_cases h with ⟨hold, -⟩ | ⟨hold, -⟩ | ⟨-, hnew⟩
  · cases ho.symm.trans hold
  · cases ho.symm.trans hold
  · exact hnew

/-- The worker makes no step after the destructor has joined it. -/
theorem not_joined_of_work (h : m.step .work = some m')
    (hended : ∀ a, m = .safe a → a.owner = .joined → a.worker = .ended) : m.owner ≠ .joined := by
  intro ho
  cases m with
  | quick q =>
    obtain ⟨hne, -⟩ := Option.ite_none_left_eq_some.1 h
    exact hne ho
  | safe a =>
    obtain ⟨a', ha, -⟩ := Option.map_eq_some_iff.1 h
    change a.work = some a' at ha
    rw [AsyncLogger.work_eq_none (hended a rfl ho)] at ha
    cases ha

end Impl

/-! ## What a step does to the writers -/

theorem writer_update {x : Logger T} (h : x.writer = (s.loggers l).writer) (l' : Ref) :
    (Function.update s.loggers l x l').writer = (s.loggers l').writer := by
  by_cases hl : l' = l
  · subst hl
    rwa [Function.update_self]
  · rw [Function.update_of_ne hl]

theorem setImpl_writer {m : Impl T} (l' : Ref) :
    ((s.setImpl l m).loggers l').writer = (s.loggers l').writer :=
  writer_update (x := { s.loggers l with impl := m }) rfl l'

theorem write_world (line : Text) :
    (s.write l line).world = ((s.loggers l).writer.write s.world line).2 := rfl

theorem write_writer (line : Text) :
    ((s.write l line).loggers l).writer = ((s.loggers l).writer.write s.world line).1 := by
  simp [System.write]

theorem write_writer_of_ne {l' : Ref} (h : l' ≠ l) (line : Text) :
    ((s.write l line).loggers l').writer = (s.loggers l').writer := by
  simp [System.write, h]

/-- The lines that the Safe loggers have passed to `FileWriter::write`. -/
def System.linesWritten (s : System T) : List Text :=
  (List.range s.allocated).flatMap fun l => (s.loggers l).impl.written

/-- The destructor of `l` has not ended. -/
def System.Live (s : System T) (l : Ref) : Prop :=
  l < s.allocated ∧ (s.loggers l).impl.owner ≠ .joined

/-- The step leaves the files alone and the writer of every logger, up to the end of its
destructor. -/
structure SameWriters (s s' : System T) : Prop where
  world : s'.world = s.world
  allocated : s'.allocated = s.allocated
  live : ∀ l, s'.Live l → s.Live l
  writer : ∀ l, s'.Live l → (s'.loggers l).writer = (s.loggers l).writer
  written : ∀ l, (s'.loggers l).impl.written = (s.loggers l).impl.written

namespace SameWriters

/-- A step that leaves the loggers alone. -/
theorem of_loggers (hworld : s'.world = s.world) (hallocated : s'.allocated = s.allocated)
    (hloggers : s'.loggers = s.loggers) : SameWriters s s' where
  world := hworld
  allocated := hallocated
  live := by
    intro l hl
    unfold System.Live at hl
    rwa [hallocated, hloggers] at hl
  writer := fun l _ => by rw [hloggers]
  written := fun l => by rw [hloggers]

/-- A step of the logger `l` that writes no line. -/
theorem of_move [DecidableEq T] {m : Impl T} {il : AsyncLogger.Label T Text}
    (hm : (s.loggers l).impl.step il = some m)
    (hl : il ≠ .work ∨ (s.loggers l).impl.pending = none)
    (hworld : s'.world = s.world) (hallocated : s'.allocated = s.allocated)
    (himpl : ∀ l', (s'.loggers l').impl = if l' = l then m else (s.loggers l').impl)
    (hwriter : ∀ l', s'.Live l' → (s'.loggers l').writer = (s.loggers l').writer) :
    SameWriters s s' where
  world := hworld
  allocated := hallocated
  live := by
    rintro l' ⟨hlt, hlive⟩
    refine ⟨hallocated ▸ hlt, ?_⟩
    rw [himpl] at hlive
    split at hlive
    · next heq =>
      subst heq
      exact fun hjoined => hlive (Impl.joined_of_step hm hjoined)
    · exact hlive
  writer := hwriter
  written := by
    intro l'
    rw [himpl]
    split
    · next heq =>
      subst heq
      exact Impl.written_of_not_pending hm hl
    · rfl

end SameWriters

section Steps

variable [DecidableEq T]

/-- The steps of the program, by what they do to the writers. -/
inductive Writing (s : System T) : Label T → System T → Prop
  | same {label : Label T} {s' : System T} (h : SameWriters s s') : Writing s label s'
  | makeDefault {s' : System T} (t : T) (c : Config)
    (h : SameWriters (s.make (ascii "default") c) s') : Writing s (.makeDefault t c) s'
  | create {s' : System T} (t : T) (name : Text) (c : Config) (h : SameWriters (s.make name c) s') :
    Writing s (.create t name c) s'
  | write (l : Ref) (m : Impl T) (line : Text) (hl : s.Live l)
    (hm : (s.loggers l).impl.step .work = some m) (hp : (s.loggers l).impl.pending = some line) :
    Writing s (.work l) ((s.setImpl l m).write l line)

theorem Writing.of_stepped (hshared : Shared s) (hdestruction : Destruction s)
    (hs : Stepped s label s') : Writing s label s' := by
  cases hs with
  | makeDefault t c hi => exact .makeDefault t c (.of_loggers rfl rfl rfl)
  | create t name c hi => exact .create t name c (.of_loggers rfl rfl rfl)
  | destroy t l rest m hc hm =>
    exact .same (.of_move hm (.inl nofun) rfl rfl setImpl_impl fun l' _ => setImpl_writer l')
  | shutDown t l rest m hc hm | construct t l next m hp hm =>
    exact .same (.of_move hm (.inl nofun) rfl rfl setImpl_impl fun l' _ => setImpl_writer l')
  | join t l rest m hc hm =>
    have himpl (l' : Ref) : (((s.setImpl l m).closeWriter l).loggers l').impl =
        if l' = l then m else (s.loggers l').impl := (closeWriter_impl l').trans (setImpl_impl l')
    refine .same (.of_move hm (.inl nofun) rfl rfl himpl fun l' hlive => ?_)
    -- the destructor of `l` ends with this step, so `l` is not live after it
    have hne : l' ≠ l := by
      rintro rfl
      have horder := hdestruction.order t
      rw [hc] at horder
      apply hlive.2
      refine (congrArg Impl.owner (himpl l')).trans ?_
      rw [if_pos rfl, Impl.joined_of_joining hm horder.of_join.1]
    exact (congrArg Logger.writer (Function.update_of_ne hne _ _)).trans (setImpl_writer l')
  | add t c l m hp hm | adding t c l m hp hm ha | addReturned t c l m hp hm ha
  | badAlloc t c l m hp hm =>
    exact .same (.of_move hm (.inl nofun) rfl rfl setImpl_impl fun l' _ => setImpl_writer l')
  | setLevel t level l hp =>
    have himpl (l' : Ref) : (Function.update s.loggers l { s.loggers l with level } l').impl =
        (s.loggers l').impl := impl_update_same (x := { s.loggers l with level }) rfl l'
    refine .same ⟨rfl, rfl, fun l' hlive => ⟨hlive.1, himpl l' ▸ hlive.2⟩, fun l' _ => ?_,
      fun l' => ?_⟩
    · exact writer_update (x := { s.loggers l with level }) rfl l'
    · exact congrArg Impl.written (himpl l')
  | work l m hl hm hp =>
    exact .same (.of_move hm (.inr hp) rfl rfl setImpl_impl fun l' _ => setImpl_writer l')
  | write l m line hl hm hp =>
    refine .write l m line ⟨hl, Impl.not_joined_of_work hm fun a ha ho => ?_⟩ hm hp
    exact AsyncLogger.ended_of_joined (hshared.runs l a ha) ho
  | _ => exact .same (.of_loggers rfl rfl rfl)

theorem Writing.of_step [Fintype T] {content : Text → Option (List Byte)}
    {guard : System T → Label T → Prop} (h : (machine T content).Reachable guard s)
    (hs : (machine T content).step s label = some s') : Writing s label s' :=
  .of_stepped (.of_reachable h) (.of_reachable h) (.of_step hs)

end Steps

/-! ## Lines stay in the files -/

/-- The step takes nothing out of the files that was written in the run. -/
def Harmless (s : System T) : Label T → Prop
  | .makeDefault _ c => s.world.files.Spare (FileWriter.firstName c.logDirectory c.logFileName)
  | .create _ _ c => s.world.files.Spare (FileWriter.firstName c.logDirectory c.logFileName)
  | .work l => ∀ line ∈ (s.loggers l).impl.pending, (s.loggers l).writer.Harmless s.world.files line
  | _ => True

instance (s : System T) : (label : Label T) → Decidable (Harmless s label)
  | .makeDefault _ _ | .create _ _ _ => inferInstanceAs (Decidable (FileSystem.Spare _ _))
  | .work l => inferInstanceAs (Decidable (∀ line ∈ (s.loggers l).impl.pending, _))
  | .log _ _ _ | .setLogLevel _ _ | .setDefaultLogger _ _ | .getDefaultLogger _ | .drop _ _
  | .dropEntry _ _ | .dropDefault _ | .run _ | .badAlloc _ => isTrue trivial

/-- Loggers that exist have their files open, and each line written is in a file. -/
structure Persisted (s : System T) : Prop where
  writers : ∀ l, s.Live l → (s.loggers l).writer.IsOpen s.world.files
  lines : s.world.files.HoldsEach s.linesWritten

namespace Persisted

theorem init (content : Text → Option (List Byte)) :
    Persisted (System.init content : System T) where
  writers := fun l hl => absurd hl.1 (Nat.not_lt_zero l)
  lines := .nil _

theorem same (h : Persisted s) (hs : SameWriters s s') : Persisted s' where
  writers := by
    intro l hl
    rw [hs.world, hs.writer l hl]
    exact h.writers l (hs.live l hl)
  lines := by
    have hlines : s'.linesWritten = s.linesWritten := by
      unfold System.linesWritten
      rw [hs.allocated]
      exact List.flatMap_congr fun l _ => hs.written l
    rw [hs.world, hlines]
    exact h.lines

/-- A new logger opens its first file. -/
theorem make (h : Persisted s) (name : Text) (c : Config)
    (hspare : s.world.files.Spare (FileWriter.firstName c.logDirectory c.logFileName)) :
    Persisted (s.make name c) where
  writers := by
    rintro l ⟨hl, hlive⟩
    by_cases hnew : l = s.allocated
    · subst hnew
      simp only [System.make, Function.update_self]
      exact FileWriter.new_isOpen _ _ _ _ _
    · rw [System.make_loggers hnew] at hlive ⊢
      have hlt : l < s.allocated := Nat.lt_of_le_of_ne (Nat.le_of_lt_succ hl) hnew
      exact (h.writers l ⟨hlt, hlive⟩).mono (List.prefix_append _ _)
  lines := by
    have hold : ∀ l ∈ List.range s.allocated,
        ((s.make name c).loggers l).impl.written = (s.loggers l).impl.written := fun l hl => by
      rw [System.make_loggers (List.mem_range.1 hl).ne]
    have hlines : (s.make name c).linesWritten = s.linesWritten := by
      unfold System.linesWritten
      rw [show (s.make name c).allocated = s.allocated + 1 from rfl, List.range_succ,
        List.flatMap_append, List.flatMap_singleton, System.make_impl, Impl.written_new,
        List.append_nil]
      exact List.flatMap_congr hold
    rw [hlines]
    exact FileWriter.new_holdsEach h.lines hspare _ _

variable [DecidableEq T]

/-- The worker of `l` writes its line. -/
theorem write (h : Persisted s) {m : Impl T} {line : Text} (hl : s.Live l)
    (hm : (s.loggers l).impl.step .work = some m) (hp : (s.loggers l).impl.pending = some line)
    (hharmless : (s.loggers l).writer.Harmless s.world.files line) :
    Persisted ((s.setImpl l m).write l line) := by
  have hopen := h.writers l hl
  have hwriter : ((s.setImpl l m).loggers l).writer = (s.loggers l).writer := setImpl_writer l
  have hworld : ((s.setImpl l m).write l line).world =
      ((s.loggers l).writer.write s.world line).2 := by
    rw [write_world, hwriter]
    rfl
  have himpl (l' : Ref) : (((s.setImpl l m).write l line).loggers l').impl =
      if l' = l then m else (s.loggers l').impl := (write_impl line l').trans (setImpl_impl l')
  refine ⟨fun l' hl' => ?_, ?_⟩
  · rw [hworld]
    by_cases heq : l' = l
    · subst heq
      rw [write_writer, hwriter]
      exact FileWriter.write_isOpen hopen
    · obtain ⟨hlt, hlive⟩ := hl'
      rw [himpl, if_neg heq] at hlive
      rw [write_writer_of_ne heq, setImpl_writer]
      exact (h.writers l' ⟨hlt, hlive⟩).mono (FileWriter.opened_write _ _ _)
  · rw [hworld]
    apply (FileWriter.write_holdsEach hopen hharmless h.lines).subperm
    have hne (l' : Ref) (hl' : l' ≠ l) :
        (((s.setImpl l m).write l line).loggers l').impl.written =
          (s.loggers l').impl.written := by
      rw [himpl, if_neg hl']
    have hself : (((s.setImpl l m).write l line).loggers l).impl.written = m.written := by
      rw [himpl, if_pos rfl]
    rcases Impl.written_of_step hm with hsame | ⟨line₀, -, hp₀, happend⟩
    · -- a Quick logger keeps no record
      have hlines : ((s.setImpl l m).write l line).linesWritten = s.linesWritten := by
        refine List.flatMap_congr fun l' _ => ?_
        by_cases heq : l' = l
        · rw [heq, hself, hsame]
        · exact hne l' heq
      rw [hlines]
      exact (List.sublist_cons_self _ _).subperm
    · rw [hp] at hp₀
      obtain rfl : line = line₀ := Option.some.inj hp₀
      exact (flatMap_range_perm hl.1 (hself.trans happend) hne).subperm

theorem step (h : Persisted s) (hg : Harmless s label) (hs : Writing s label s') :
    Persisted s' := by
  cases hs with
  | same hsame => exact h.same hsame
  | makeDefault t c hsame => exact (h.make (ascii "default") c hg).same hsame
  | create t name c hsame => exact (h.make name c hg).same hsame
  | write l m line hl hm hp => exact h.write hl hm hp (hg line hp)

end Persisted

variable [DecidableEq T] [Fintype T]

theorem Persisted.of_reachable
    {content : Text → Option (List Byte)} (h : (machine T content).Reachable Harmless s) :
    Persisted s := by
  induction h with
  | refl => exact .init content
  | tail label hreach hg hs ih =>
    exact ih.step hg (.of_step hreach hs)

/-- The lines added to a Safe logger whose destructor has ended are among the lines written. -/
theorem addedTo_subperm (hcard : Fintype.card T + Buffer.size < 2 ^ 32)
    {content : Text → Option (List Byte)} {guard : System T → Label T → Prop}
    (h : (machine T content).Reachable guard s) {a : AsyncLogger.Safe.System T Text}
    (ha : (s.loggers l).impl = .safe a) (hjoined : a.owner = .joined) :
    List.Subperm ((s.addedTo l).map LogCall.line) s.linesWritten := by
  rcases Nat.lt_or_ge l s.allocated with hl | hl
  · have hwritten : (s.loggers l).impl.written.Sublist s.linesWritten :=
      List.sublist_flatten_of_mem (List.mem_map_of_mem (List.mem_range.2 hl))
    rw [ha] at hwritten
    exact List.Subperm.trans (written_perm_addedTo hcard h ha hjoined).symm.subperm
      hwritten.subperm
  · have hnone : s.addedTo l = [] := by
      rw [System.addedTo, List.map_eq_nil_iff, List.filter_eq_nil_iff]
      intro e he heq
      have hlt := (Accepted.of_reachable h).loggers e he
      exact absurd (of_decide_eq_true heq) (hlt.trans_le hl).ne
    rw [hnone]
    exact List.nil_subperm

/-- Lines stay in the files: in every run that opens only spare files and writes only at the end of
files, the text of every line added to a Safe logger stands unbroken in a file, at a place of its
own, when the destructor of the logger has ended. -/
theorem lines_persist (hcard : Fintype.card T + Buffer.size < 2 ^ 32)
    {content : Text → Option (List Byte)} (h : (machine T content).Reachable Harmless s)
    {a : AsyncLogger.Safe.System T Text} (ha : (s.loggers l).impl = .safe a)
    (hjoined : a.owner = .joined) :
    s.world.files.HoldsEach ((s.addedTo l).map LogCall.line) ∧
      ∀ c ∈ s.addedTo l, s.world.files.Holds c.line := by
  have heach := (Persisted.of_reachable h).lines.subperm (addedTo_subperm hcard h ha hjoined)
  exact ⟨heach, fun c hc => heach.holds (List.mem_map_of_mem hc)⟩

/-- `initializeSafe` twice, with two names, and two equal lines before the second call. -/
theorem lines_persist_replaced : ∃ s : System Unit, (s.loggers 0).impl.owner = .joined ∧
    s.world.files.HoldsEach [ascii "x", ascii "x"] := by
  let initializeSafe (name : Text) : Label Unit :=
    .makeDefault () ⟨none, ascii "d/", name, 1, false⟩
  obtain ⟨s, hs, hfin⟩ := Option.map_eq_some_iff.1 (show
    (((machine Unit fun _ => none).restrict Harmless).exec (.init fun _ => none)
      ([initializeSafe (ascii "f")] ++ List.replicate 4 (.run ()) ++
        [.log () .info (ascii "x")] ++ List.replicate 12 (.run ()) ++
        [.log () .info (ascii "x")] ++ List.replicate 12 (.run ()) ++ List.replicate 14 (.work 0) ++
        [initializeSafe (ascii "g")] ++ List.replicate 8 (.run ()) ++ List.replicate 3 (.work 0) ++
        [.run ()])).map
      (fun s => ((s.addedTo 0).map LogCall.line, (s.loggers 0).impl.owner,
        match (s.loggers 0).impl with
          | .safe _ => true
          | .quick _ => false)) = some ([ascii "x", ascii "x"], .joined, true) by
      decide +kernel)
  simp only [Prod.mk.injEq] at hfin
  obtain ⟨hadded, howner, hsafe⟩ := hfin
  refine ⟨s, howner, ?_⟩
  cases hl : (s.loggers 0).impl with
  | quick q => simp [hl] at hsafe
  | safe a =>
    rw [hl] at howner
    rw [← hadded]
    exact (lines_persist (by decide) (.of_restrict hs) hl howner).1

/-- `initializeSafe` twice with one name, when the worker has written the line. -/
theorem exists_line_lost : ∃ s : System Unit,
    (machine Unit fun _ => none).Reachable Machine.anyStep s ∧
      (∀ l < s.allocated, ∃ a, (s.loggers l).impl = .safe a ∧ a.owner = .joined) ∧
      ∃ c ∈ s.addedTo 0, ¬ s.world.files.Holds c.line := by
  let initializeSafe : Label Unit := .makeDefault () ⟨none, ascii "d/", ascii "f", 1, false⟩
  let joined (m : Impl Unit) : Bool :=
    match m with
      | .safe a => a.owner = .joined
      | .quick _ => false
  obtain ⟨s, hs, hfin⟩ := Option.map_eq_some_iff.1 (show
    ((machine Unit fun _ => none).exec (.init fun _ => none)
      ([initializeSafe] ++ List.replicate 4 (.run ()) ++ [.log () .info (ascii "x")] ++
        List.replicate 12 (.run ()) ++ List.replicate 9 (.work 0) ++ [initializeSafe] ++
        List.replicate 8 (.run ()) ++ List.replicate 3 (.work 0) ++
        [.run (), .dropEntry () (ascii "default"), .run (), .dropDefault ()] ++
        List.replicate 3 (.run ()) ++ List.replicate 7 (.work 1) ++ [.run ()])).map
      (fun s => ((List.range s.allocated).map fun l => joined (s.loggers l).impl,
        (s.addedTo 0).map LogCall.line, s.world.files.opened.map s.world.files.content)) =
      some ([true, true], [ascii "x"], [some [], some []]) by decide +kernel)
  simp only [Prod.mk.injEq] at hfin
  obtain ⟨hjoined, hadded, hcontent⟩ := hfin
  have hsafe (m : Impl Unit) (hm : joined m = true) : ∃ a, m = .safe a ∧ a.owner = .joined := by
    cases m with
    | quick q => cases hm
    | safe a => exact ⟨a, rfl, of_decide_eq_true hm⟩
  refine ⟨s, .of_exec _ (fun _ _ _ => trivial) hs, fun l hl => ?_, ?_⟩
  · have hmem := List.mem_map_of_mem (f := fun l => joined (s.loggers l).impl) (List.mem_range.2 hl)
    rw [hjoined] at hmem
    exact hsafe _ (by simpa using hmem)
  · obtain ⟨c, hc, hline⟩ : ∃ c ∈ s.addedTo 0, c.line = ascii "x" := by
      apply List.mem_map.1
      rw [hadded]
      exact List.mem_singleton_self _
    refine ⟨c, hc, ?_⟩
    rintro ⟨name, content, hopened, hname, hinfix⟩
    have hmem := List.mem_map_of_mem (f := s.world.files.content) hopened
    rw [hcontent, hname] at hmem
    obtain rfl : content = [] := by simpa using hmem
    rw [hline] at hinfix
    exact absurd (List.infix_nil.1 hinfix) (by decide)

end Logging

end ZephyrLog
