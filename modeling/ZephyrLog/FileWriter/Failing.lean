import ZephyrLog.FileWriter.Retention

/-!
# When a file cannot be opened

`rollFile` closes the open file before it tries to open the next one, and does not look whether that
succeeds; `write` does nothing unless a file is open.  So as long as every open has succeeded each
line is appended to a file, and after the first open that fails nothing is written or opened any
more.  Opens may fail in any pattern; an open that fails leaves the files as they are.
-/

namespace ZephyrLog

namespace FileWriter

/-- Which files can be opened at the time of a call. -/
abbrev Opens := Text → Bool

namespace Failing

/-- A writer and what it writes to. -/
structure State where
  writer : FileWriter
  world : World
  /-- For each attempt to open a file, whether it succeeded. -/
  outcomes : List Bool

namespace State

/-- `FileWriter::rollFile`, in which the open of the next file may fail. -/
def rollFile (s : State) (opens : Opens) : State :=
  if opens s.writer.nextName then
    { writer := (s.writer.rollFile s.world).1
      world := (s.writer.rollFile s.world).2
      outcomes := s.outcomes ++ [true] }
  else
    -- `m_os` is a new stream that is not open
    { writer := { s.writer with
        fileNumber := s.writer.fileNumber + 1, bytesWritten := 0, os := none }
      world := s.world
      outcomes := s.outcomes ++ [false] }

/-- The constructor. -/
def new (logDirectory logFileName : Text) (rollSize : BitVec 32) (terminalOutput : Bool) (d : World)
    (opens : Opens) : State :=
  rollFile
    { writer :=
        { fileNumber := 0, bytesWritten := 0, rollSize, name := logDirectory ++ logFileName,
          terminalOutput, os := none }
      world := d
      outcomes := [] } opens

/-- `write(LogLine&)` of a line with the text `line`. -/
def write (s : State) (line : Text) (opens : Opens) : State :=
  match s.writer.os with
  | none => s
  | some os =>
    let d₁ := s.writer.echo s.world line
    let pos : ℤ := os.position
    let os₁ := os.advance line
    let d₂ := { d₁ with files := d₁.files.write os line }
    let written : ℤ := os₁.position - pos
    let w₁ := { s.writer with
      os := some os₁
      bytesWritten :=
        if 0 < written then s.writer.bytesWritten + written else s.writer.bytesWritten }
    let s₁ := { s with writer := w₁, world := d₂ }
    if (w₁.rollSize.toNat : ℤ) < w₁.bytesWritten then s₁.rollFile opens else s₁

end State

/-- A call of `write`. -/
structure Call where
  line : Text
  opens : Opens

/-- A sequence of calls of one writer. -/
def State.writeAll (s : State) (calls : List Call) : State :=
  calls.foldl (fun s call => s.write call.line call.opens) s

/-- An open of the constructor or of `rollFile` has failed. -/
def State.Failed (s : State) : Prop := false ∈ s.outcomes

/-- The line is appended to the file that the writer of `s` has open, which is the one with its
name and number. -/
def Appended (name : Text) (s s' : State) (line : Text) : Prop :=
  ∃ os content, s.writer.os = some os ∧ os.name = logFileName name s.writer.fileNumber ∧
    os.name ∈ s.world.files.opened ∧ s.world.files.content os.name = some content ∧
    s'.world.files.content os.name = some (content ++ line)

/-! ## When every open succeeds -/

section Succeeding

variable {s : State} {line : Text} {opens : Opens} {os : Stream Text}

/-- The state after the bytes of a line have been written. -/
def State.afterLine (s : State) (os : Stream Text) (line : Text) : State :=
  { s with writer := s.writer.afterLine os line, world := s.writer.worldAfter s.world os line }

theorem write_of_closed (h : s.writer.os = none) : s.write line opens = s := by
  unfold State.write
  rw [h]

theorem write_eq (h : s.writer.os = some os) : s.write line opens =
    if s.writer.Rolls line then (s.afterLine os line).rollFile opens else s.afterLine os line := by
  unfold State.write
  simp only [h, counted_eq, files_echo]
  rfl

theorem write_of_opens (s : State) (line : Text) :
    ((s.write line fun _ => true).writer, (s.write line fun _ => true).world) =
      s.writer.write s.world line := by
  cases hos : s.writer.os with
  | none => rw [write_of_closed hos, FileWriter.write, hos]
  | some os =>
    rw [write_eq hos]
    by_cases hrolls : s.writer.Rolls line
    · rw [if_pos hrolls, FileWriter.write_of_rolls hos hrolls]
      rfl
    · rw [if_neg hrolls, FileWriter.write_of_not_rolls hos hrolls]
      rfl

/-- Where every file can be opened this is the writer of the other modules. -/
theorem writeAll_of_opens (s : State) (lines : List Text) :
    let s' := s.writeAll (lines.map fun line => ⟨line, fun _ => true⟩)
    (s'.writer, s'.world) = s.writer.writeAll s.world lines := by
  induction lines generalizing s with
  | nil => rfl
  | cons line lines ih =>
    refine (ih (s.write line fun _ => true)).trans ?_
    unfold FileWriter.writeAll
    rw [List.foldl_cons, ← write_of_opens]

end Succeeding

/-! ## As long as no open has failed -/

/-- The writer has the file of its number open and stands at its end. -/
def State.Open (s : State) : Prop :=
  ∃ os content, s.writer.os = some os ∧ os.name = logFileName s.writer.name s.writer.fileNumber ∧
    os.name ∈ s.world.files.opened ∧ s.world.files.content os.name = some content ∧
    os.position = content.length

/-- The writer has a file open as long as no open has failed, and none afterwards. -/
structure Follows (name : Text) (s : State) : Prop where
  name_eq : s.writer.name = name
  isOpen : ¬ s.Failed → s.Open
  isClosed : s.Failed → s.writer.os = none

section Steps

variable {name line : Text} {opens : Opens} {s : State} {os : Stream Text}

theorem follows_rollFile (hname : s.writer.name = name) (hfailed : ¬ s.Failed) :
    Follows name (s.rollFile opens) := by
  unfold State.Failed at hfailed
  by_cases hopens : opens s.writer.nextName
  · have heq : s.rollFile opens = ⟨(s.writer.rollFile s.world).1, (s.writer.rollFile s.world).2,
        s.outcomes ++ [true]⟩ := if_pos hopens
    rw [heq]
    refine ⟨hname, fun _ => ?_, fun h => absurd h (by simp [State.Failed, hfailed])⟩
    refine ⟨⟨s.writer.nextName, 0⟩, [], rfl, rfl, ?_, FileSystem.content_openTrunc_self, rfl⟩
    exact List.mem_append_right _ List.mem_cons_self
  · have heq : s.rollFile opens = ⟨{ s.writer with
        fileNumber := s.writer.fileNumber + 1, bytesWritten := 0, os := none }, s.world,
        s.outcomes ++ [false]⟩ := if_neg hopens
    rw [heq]
    exact ⟨hname, fun h => absurd (by simp [State.Failed]) h, fun _ => rfl⟩

/-- The bytes of the line are at the end of the open file. -/
theorem content_afterLine {content : Text} (hcontent : s.world.files.content os.name = some content)
    (hend : os.position = content.length) (line : Text) :
    (s.afterLine os line).world.files.content os.name = some (content ++ line) := by
  rw [← overwrite_end, ← hend]
  exact FileSystem.content_write_self hcontent

theorem open_afterLine (hos : s.writer.os = some os) (h : s.Open) :
    (s.afterLine os line).Open := by
  obtain ⟨os', content, hos', hname, hmem, hcontent, hend⟩ := h
  cases hos.symm.trans hos'
  refine ⟨os.advance line, content ++ line, rfl, hname, hmem, ?_, ?_⟩
  · exact content_afterLine hcontent hend line
  · rw [List.length_append, ← hend]
    rfl

theorem Follows.write (h : Follows name s) (line : Text) (opens : Opens) :
    Follows name (s.write line opens) := by
  by_cases hfailed : s.Failed
  · rwa [write_of_closed (h.isClosed hfailed)]
  have hopen := h.isOpen hfailed
  obtain ⟨os, -, hos, -⟩ := id hopen
  rw [write_eq hos]
  split
  · exact follows_rollFile h.name_eq hfailed
  · exact ⟨h.name_eq, fun _ => open_afterLine hos hopen, fun h' => absurd h' hfailed⟩

theorem Follows.writeAll (h : Follows name s) (calls : List Call) :
    Follows name (s.writeAll calls) := by
  induction calls generalizing s with
  | nil => exact h
  | cons call calls ih => exact ih (h.write call.line call.opens)

/-- The roll after a line opens another file. -/
theorem content_rollFile {f : Text} (hf : f ≠ s.writer.nextName) :
    (s.rollFile opens).world.files.content f = s.world.files.content f := by
  unfold State.rollFile
  split
  · exact FileSystem.content_openTrunc hf
  · rfl

theorem Follows.appended (h : Follows name s) (hfailed : ¬ s.Failed) :
    Appended name s (s.write line opens) line := by
  obtain ⟨os, content, hos, hname, hmem, hcontent, hend⟩ := h.isOpen hfailed
  have hline := content_afterLine hcontent hend line
  refine ⟨os, content, hos, h.name_eq ▸ hname, hmem, hcontent, ?_⟩
  rw [write_eq hos]
  split
  · have hne : os.name ≠ (s.afterLine os line).writer.nextName := by
      rw [hname]
      exact (nextName_ne (s.afterLine os line).writer).symm
    rwa [content_rollFile hne]
  · exact hline

end Steps

/-- Whatever opens succeed and fail: if every earlier open has succeeded the line is appended to the
file that is open, and otherwise no file is open and nothing happens at all, so that no line is
written and no open is tried after one has failed. -/
theorem dropped_iff_failed (logDirectory logFile : Text) (rollSize : BitVec 32)
    (terminalOutput : Bool) (d : World) (opens : Opens) (calls : List Call) (call : Call) :
    let s := (State.new logDirectory logFile rollSize terminalOutput d opens).writeAll calls
    (¬ s.Failed →
        Appended (logDirectory ++ logFile) s (s.write call.line call.opens) call.line) ∧
      (s.Failed → s.writer.os = none ∧ s.write call.line call.opens = s) := by
  have hnew : Follows (logDirectory ++ logFile)
      (State.new logDirectory logFile rollSize terminalOutput d opens) :=
    follows_rollFile rfl (by simp [State.Failed])
  have h := hnew.writeAll calls
  exact ⟨h.appended, fun hfailed => ⟨h.isClosed hfailed, write_of_closed (h.isClosed hfailed)⟩⟩

/-- The roll after the line `a` fails, and the line `b` is dropped although every file can be opened
again. -/
theorem dropped_while_openable :
    let s := (State.new [] [] 0 false ⟨⟨fun _ => none, []⟩, []⟩ fun _ => true).writeAll
      [⟨ascii "a", fun _ => false⟩]
    s.write (ascii "b") (fun _ => true) = s ∧
      ∀ f content, s.world.files.content f = some content → ¬ ascii "b" <:+: content := by
  refine ⟨rfl, fun f content hcontent => ?_⟩
  by_cases hf : f = logFileName [] 1
  · subst hf
    obtain rfl : ascii "a" = content := Option.some.inj hcontent
    decide
  · have hnone := (Function.update_of_ne hf (some (ascii "a")) _).trans
      (Function.update_of_ne hf (some []) fun _ => none)
    exact absurd (hnone.symm.trans hcontent) (Option.some_ne_none content).symm

end Failing

end FileWriter

end ZephyrLog
