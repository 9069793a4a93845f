import ZephyrLog.AsyncLogger.Termination
import ZephyrLog.FileWriter.Rolling
import ZephyrLog.Pipeline.Model

/-!
# What reaches the files

The writer has been given the lines that the worker has written, so the files hold their texts in
this order, cut into parts as `Rolling` says, and the terminal has them in the same order.  Every
step of the logger is one of the pipeline: the worker never comes to `FileWriter::write` with
anything but a line that was added.  So the destructor returns here as well.
-/

namespace ZephyrLog

namespace FileWriter

variable {w : FileWriter} {d : World} {line : Text}

/-- An open writer stays open, and the terminal has the line if that is wanted. -/
theorem write_terminal (h : w.os ≠ none) : (w.write d line).1.os ≠ none ∧
    (w.write d line).1.terminalOutput = w.terminalOutput ∧
    (w.write d line).2.cout = d.cout ++ if w.terminalOutput then line else [] := by
  obtain ⟨os, hos⟩ := Option.ne_none_iff_exists'.1 h
  have hcout : (w.worldAfter d os line).cout = d.cout ++ if w.terminalOutput then line else [] := by
    unfold worldAfter echo
    split <;> simp
  rw [write_eq hos]
  split
  · exact ⟨by simp [rollFile], rfl, hcout⟩
  · exact ⟨by simp [afterLine], rfl, hcout⟩

theorem writeAll_terminal (h : w.os ≠ none) (lines : List Text) : (w.writeAll d lines).1.os ≠ none ∧
    (w.writeAll d lines).1.terminalOutput = w.terminalOutput ∧
    (w.writeAll d lines).2.cout = d.cout ++ if w.terminalOutput then lines.flatten else [] := by
  induction lines using List.reverseRecOn with
  | nil => exact ⟨h, rfl, by simp [writeAll]⟩
  | append_singleton lines line ih =>
    obtain ⟨hos, hterminal, hcout⟩ := ih
    obtain ⟨hos', hterminal', hcout'⟩ := write_terminal hos (d := (w.writeAll d lines).2)
    rw [writeAll_concat]
    refine ⟨hos', hterminal'.trans hterminal, ?_⟩
    rw [hcout', hcout, hterminal]
    split <;> simp

/-- A line opens at most one file. -/
theorem opened_length_write (w : FileWriter) (d : World) (line : Text) :
    (w.write d line).2.files.opened.length ≤ d.files.opened.length + 1 := by
  cases hos : w.os with
  | none => simp [write, hos]
  | some os =>
    rw [write_eq hos]
    split <;> simp [rollFile, worldAfter, echo]

theorem opened_length_writeAll (w : FileWriter) (d : World) (lines : List Text) :
    (w.writeAll d lines).2.files.opened.length ≤ d.files.opened.length + lines.length := by
  induction lines using List.reverseRecOn with
  | nil => exact le_rfl
  | append_singleton lines line ih =>
    have hline := opened_length_write (w.writeAll d lines).1 (w.writeAll d lines).2 line
    rw [writeAll_concat, List.length_append, List.length_singleton]
    omega

/-- The file of each part. -/
theorem Rolling.content {d₀ : World} {name : Text} {rollSize : BitVec 32}
    {closed : List (List Text)} {current : List Text}
    (h : Rolling d₀ name rollSize w d closed current) {i : ℕ} {part : List Text}
    (hpart : (closed ++ [current])[i]? = some part) :
    d.files.content (nameOf name i) = some part.flatten := by
  rcases Nat.lt_or_ge i closed.length with hi | hi
  · rw [List.getElem?_append_left hi] at hpart
    exact h.content_closed i part hpart
  · rw [List.getElem?_append_right hi] at hpart
    obtain ⟨hlt, rfl⟩ := List.getElem?_eq_some_iff.1 hpart
    obtain rfl : i = closed.length := by
      rw [List.length_singleton] at hlt
      omega
    simpa using h.content_current

end FileWriter

namespace Pipeline

open BufferBase ObservedBuffer

section Writer

variable {config : Config} {d₀ : World}

/-- What the constructor's writer has made of the lines it was given. -/
theorem rolling_of_writeAll {w : FileWriter} {d : World} {lines : List Text}
    (h : (w, d) =
      (FileWriter.new config.logDirectory config.logFileName config.rollSize
        config.terminalOutput d₀).1.writeAll
      (FileWriter.new config.logDirectory config.logFileName config.rollSize
        config.terminalOutput d₀).2 lines) :
    (d.files.opened.length < d₀.files.opened.length + 2 ^ 32 →
      ∃ closed current, FileWriter.Rolling d₀ (config.logDirectory ++ config.logFileName)
          config.rollSize w d closed current ∧
        current.flatten.length ≤ config.rollSize.toNat ∧ closed.flatten ++ current = lines) ∧
    d.cout = d₀.cout ++ if config.terminalOutput then lines.flatten else [] := by
  have hnew := FileWriter.Rolling.new d₀ config.logDirectory config.logFileName config.rollSize
    config.terminalOutput
  have hopen : (FileWriter.new config.logDirectory config.logFileName config.rollSize
      config.terminalOutput d₀).1.os ≠ none := by
    rw [hnew.os]
    simp
  obtain ⟨rfl, rfl⟩ := Prod.mk.inj h
  obtain ⟨-, -, hcout⟩ := FileWriter.writeAll_terminal hopen lines
  exact ⟨hnew.writeAll lines, hcout⟩

end Writer

variable {B T L : Type} {fmt : Format} [Pushed L (PrintedLine fmt)]

/-! ## The steps -/

section Steps

variable [BufferBase B T (PrintedLine fmt) L] {s s' : System B L}

/-- The worker writes a line that was added. -/
theorem write_line {loop : AsyncLogger.Loop} {p : L} (hw : s.logger.worker = .write loop)
    (hp : logline s.logger.buffer = .line p) :
    s.write = some (s.writer.write s.world (Pushed.line p).text) := by
  obtain ⟨out, hout, htext⟩ := Option.map_eq_some_iff.1 (Pushed.line p).printed
  simp only [System.write, hw, hp, hout, Option.map_some, htext]

theorem write_none (hw : ∀ loop, s.logger.worker ≠ .write loop) :
    s.write = some (s.writer, s.world) := by
  unfold System.write
  cases hworker : s.logger.worker with
  | write loop => exact absurd hworker (hw loop)
  | _ => rfl

/-- Only a line that was added can be written. -/
theorem exists_line {loop : AsyncLogger.Loop} (hw : s.logger.worker = .write loop)
    {x : FileWriter × World} (h : s.write = some x) : ∃ p, logline s.logger.buffer = .line p := by
  unfold System.write at h
  cases hp : logline s.logger.buffer with
  | line p => exact ⟨p, rfl⟩
  | placeholder | movedFrom => simp [hw, hp] at h

/-- What a step can do: it is one of the logger, and the writer is given the line that the worker
writes, if it does. -/
theorem step_cases {l : AsyncLogger.Label T (PrintedLine fmt)} (h : s.step l = some s') :
    s.logger.step l = some s'.logger ∧
      ((∃ p, s'.logger.written = s.logger.written ++ [.line p] ∧
          (s'.writer, s'.world) = s.writer.write s.world (Pushed.line p).text) ∨
        s'.logger.written = s.logger.written ∧ s'.writer = s.writer ∧ s'.world = s.world) := by
  cases l with
  | work =>
    obtain ⟨⟨writer, world⟩, hwrite, h⟩ := Option.bind_eq_some_iff.1 h
    obtain ⟨logger, hlogger, h⟩ := Option.bind_eq_some_iff.1 h
    cases h
    refine ⟨hlogger, ?_⟩
    rcases AsyncLogger.written_of_step hlogger with ⟨hsame, hw⟩ | ⟨-, ⟨loop, hw⟩, hwritten⟩
    · rw [write_none (hw rfl)] at hwrite
      cases hwrite
      exact .inr ⟨hsame, rfl, rfl⟩
    · obtain ⟨p, hp⟩ := exists_line hw hwrite
      rw [write_line hw hp] at hwrite
      exact .inl ⟨p, by rw [hwritten, hp], (Option.some.inj hwrite).symm⟩
  | _ =>
    obtain ⟨logger, hlogger, rfl⟩ := Option.map_eq_some_iff.1 h
    rcases AsyncLogger.written_of_step hlogger with ⟨hsame, -⟩ | ⟨heq, -⟩
    · exact ⟨hlogger, .inr ⟨hsame, rfl, rfl⟩⟩
    · cases heq

/-- The writer has been given the lines that the worker has written. -/
def Delivered (config : Config) (d₀ : World) (s : System B L) : Prop :=
  ∃ lines : List L, s.logger.written = lines.map Cell.line ∧
    (s.writer, s.world) =
      (FileWriter.new config.logDirectory config.logFileName config.rollSize
        config.terminalOutput d₀).1.writeAll
      (FileWriter.new config.logDirectory config.logFileName config.rollSize
        config.terminalOutput d₀).2 (texts lines)

namespace Delivered

variable {b₀ : B} {config : Config} {d₀ : World}

theorem step (h : Delivered config d₀ s) {l : AsyncLogger.Label T (PrintedLine fmt)}
    (hs : s.step l = some s') : Delivered config d₀ s' := by
  obtain ⟨lines, hwritten, hwriter⟩ := h
  obtain ⟨-, ⟨p, hwritten', hwriter'⟩ | ⟨hwritten', hw, hd⟩⟩ := step_cases hs
  · refine ⟨lines ++ [p], by rw [hwritten', hwritten]; simp, ?_⟩
    rw [hwriter', texts, List.map_append, List.map_singleton, FileWriter.writeAll_concat, ← texts,
      ← hwriter]
  · exact ⟨lines, hwritten'.trans hwritten, by rw [hw, hd]; exact hwriter⟩

theorem of_reachable {guard : System B L → AsyncLogger.Label T (PrintedLine fmt) → Prop}
    (h : (machine b₀ config d₀).Reachable guard s) : Delivered config d₀ s :=
  h.invariant ⟨[], rfl, rfl⟩ fun _ _ _ hs _ hstep => hs.step hstep

omit [BufferBase B T (PrintedLine fmt) L] in
/-- As many files as lines, and the first one, are the most that are opened. -/
theorem opened_length (h : Delivered config d₀ s) :
    s.world.files.opened.length ≤ d₀.files.opened.length + 1 + s.logger.written.length := by
  obtain ⟨lines, hwritten, hwriter⟩ := h
  obtain ⟨-, hd⟩ := Prod.mk.inj hwriter
  have hle := FileWriter.opened_length_writeAll
    (FileWriter.new config.logDirectory config.logFileName config.rollSize config.terminalOutput
      d₀).1
    (FileWriter.new config.logDirectory config.logFileName config.rollSize config.terminalOutput
      d₀).2 (texts lines)
  rw [texts, List.length_map] at hle
  rw [hd, hwritten, List.length_map]
  exact hle.trans (by simp [FileWriter.new, FileWriter.rollFile])

end Delivered

end Steps

/-! ## Runs -/

section Runs

variable [ObservedBuffer B T (PrintedLine fmt) L] {b₀ : B} {config : Config} {d₀ : World}
  {s s' : System B L} {σ : ℕ → AsyncLogger.Label T (PrintedLine fmt)}

/-- A run of the pipeline is one of the logger. -/
theorem logger_reaches {guard : System B L → AsyncLogger.Label T (PrintedLine fmt) → Prop}
    {guard' : AsyncLogger B L → AsyncLogger.Label T (PrintedLine fmt) → Prop}
    (hguard : ∀ s l, guard s l → guard' s.logger l)
    (h : (machine b₀ config d₀).Reaches guard s s') :
    (AsyncLogger.machine b₀).Reaches guard' s.logger s'.logger :=
  h.project System.logger fun s l _ hg hs => .single l (hguard s l hg) (step_cases hs).1

theorem logger_reachable (h : (machine b₀ config d₀).Reachable AddsReturned s) :
    (AsyncLogger.machine b₀).Reachable AsyncLogger.AddsReturned s.logger := by
  have hr : (AsyncLogger.machine b₀).Reaches AsyncLogger.AddsReturned
      (System.init b₀ config d₀ : System B L).logger s.logger :=
    logger_reaches (fun _ _ hg => hg) h
  exact hr

/-- The worker never comes to `FileWriter::write` with anything but a line that was added. -/
theorem write_isSome (hb : Lawful b₀) (h : (machine b₀ config d₀).Reachable AddsReturned s) :
    s.write.isSome := by
  have hlogger := logger_reachable h
  by_cases hw : ∃ loop, s.logger.worker = .write loop
  · obtain ⟨loop, hw⟩ := hw
    have hat := (AsyncLogger.Working.of_reachable hb hlogger).worker
    rw [hw] at hat
    obtain ⟨-, hresult, hpopped⟩ := hat
    rw [hb.inHand_of_result hresult] at hpopped
    obtain ⟨p, -, hp⟩ := hb.popped_subset (AsyncLogger.buffer_reaches hlogger)
      (logline s.logger.buffer) (by rw [hpopped]; exact List.mem_append_right _ List.mem_cons_self)
    rw [write_line hw hp]
    rfl
  · rw [write_none fun loop hloop => hw ⟨loop, hloop⟩]
    rfl

/-- Every step of the logger is one of the pipeline. -/
theorem exists_step (hb : Lawful b₀) (h : (machine b₀ config d₀).Reachable AddsReturned s)
    {l : AsyncLogger.Label T (PrintedLine fmt)} {logger : AsyncLogger B L}
    (hs : s.logger.step l = some logger) : ∃ s', s.step l = some s' ∧ s'.logger = logger := by
  cases l with
  | work =>
    obtain ⟨⟨writer, world⟩, hwrite⟩ := Option.isSome_iff_exists.1 (write_isSome hb h)
    exact ⟨⟨logger, writer, world⟩, by simp [System.step, System.work, hwrite, hs], rfl⟩
  | _ => exact ⟨{ s with logger }, by simp [System.step, hs], rfl⟩

/-- Every run of the logger is one of the pipeline. -/
theorem exists_reachable (hb : Lawful b₀) (config : Config) (d₀ : World)
    {guard : AsyncLogger B L → AsyncLogger.Label T (PrintedLine fmt) → Prop}
    (hguard : ∀ x l, guard x l → AsyncLogger.AddsReturned x l) {x : AsyncLogger B L}
    (hx : (AsyncLogger.machine b₀).Reachable guard x) :
    ∃ s, (machine b₀ config d₀).Reachable (fun s => guard s.logger) s ∧ s.logger = x := by
  induction hx with
  | refl => exact ⟨_, .refl, rfl⟩
  | tail l _ hg hs ih =>
    obtain ⟨s, hreach, rfl⟩ := ih
    obtain ⟨s', hs', rfl⟩ := exists_step hb (hreach.mono fun _ _ hg => hguard _ _ hg) hs
    exact ⟨s', .tail l hreach hg hs', rfl⟩

/-- The logger takes its turns as it does alone. -/
theorem logger_run (hb : Lawful b₀) (h : (machine b₀ config d₀).Reachable AddsReturned s)
    (hguard : ∀ n, AddsReturned ((machine b₀ config d₀).run s σ n) (σ n)) (n : ℕ) :
    ((machine b₀ config d₀).run s σ n).logger = (AsyncLogger.machine b₀).run s.logger σ n := by
  refine Machine.run_project System.logger (fun t l u hs => (step_cases hs).1)
    (fun t l logger ht hs => ?_) hguard n
  obtain ⟨u, hu, -⟩ := exists_step hb (h.trans ht) hs
  exact ⟨u, hu⟩

/-- The destructor returns. -/
theorem exists_joined (hb : Lawful b₀) (h : (machine b₀ config d₀).Reachable AddsReturned s)
    (ho : s.logger.owner.Destroying) (hfair : Machine.Fair σ fun l => l = .work ∨ l = .own)
    (hguard : ∀ n, AddsReturned ((machine b₀ config d₀).run s σ n) (σ n)) :
    ∃ n, ((machine b₀ config d₀).run s σ n).logger.Ended := by
  have hlogger (n : ℕ) := logger_run hb h hguard n
  obtain ⟨n, hn⟩ := AsyncLogger.exists_joined hb (logger_reachable h) ho hfair fun n => by
    rw [← hlogger]
    exact hguard n
  exact ⟨n, by rwa [hlogger]⟩

end Runs

/-! ## Lines of a given text -/

/-- A library whose formatting of numbers writes nothing. -/
def mute : Format :=
  { localTime := fun _ => [], threadId := fun _ => [], int32 := fun _ => [], uint32 := fun _ => [],
    int64 := fun _ => [], uint64 := fun _ => [], double := fun _ => [] }

/-- Every address has the C string of the letter `a`. -/
def memoryOfA : Memory := fun _ => [97, 0]

/-- The line that a statement builds which streams one letter. -/
def buildLetter (letter : Byte) : Option (PrintedLine mute) :=
  (LogLine.build (.replicate _ 0) ⟨1, 2, 3, 4, 5, .info⟩ [(memoryOfA, .char letter)]).bind
    (PrintedLine.of mute memoryOfA)

theorem buildLetter_isSome (letter : Byte) : (buildLetter letter).isSome := by
  obtain ⟨text, htext⟩ : ∃ text,
      mute.line memoryOfA ⟨1, 2, 3, 4, 5, .info⟩ [.char letter] = some text := ⟨_, rfl⟩
  have hrecords : List.Forall₂ (fun call r => call.2.record call.1 = some r)
      [(memoryOfA, Argument.char letter)] [.char letter] := .cons rfl .nil
  obtain ⟨line, hbuild, hmemory, -⟩ := PrintedLine.exists_of_build (.replicate _ 0)
    ⟨1, 2, 3, 4, 5, .info⟩ hrecords (show 37 + 2 < 2 ^ 64 by decide) htext
  rw [buildLetter, hbuild, Option.bind_some, ← hmemory, PrintedLine.of_eq]
  rfl

/-- That line. -/
def letterLine (letter : Byte) : PrintedLine mute :=
  (buildLetter letter).get (buildLetter_isSome letter)

/-- There are no files, and nothing has been printed. -/
def emptyWorld : World := ⟨⟨fun _ => none, []⟩, []⟩

/-- Files `d/log.1.txt`, `d/log.2.txt`, … that roll after ten bytes, and `std::cout`. -/
def toDirectory : Config := ⟨ascii "d/", ascii "log", 10, true⟩

end Pipeline

end ZephyrLog
