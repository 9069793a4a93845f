import ZephyrLog.FileWriter.Rolling

/-!
# Writers that leave the files of others alone

Any number of writers share the files.  An open writer (`IsOpen`) that opens only spare files and
writes at the end of its file (`Harmless`) takes nothing out of the files and adds its line.
-/

namespace ZephyrLog

namespace FileWriter

/-- The name of the file that the constructor opens. -/
def firstName (logDirectory logFileName : Text) : Text :=
  FileWriter.logFileName (logDirectory ++ logFileName) 1

/-- The name of the file that `rollFile` opens. -/
def nextName (w : FileWriter) : Text := logFileName w.name (w.fileNumber + 1)

/-- After this line the writer goes on to its next file. -/
def Rolls (w : FileWriter) (line : Text) : Prop :=
  (w.rollSize.toNat : ℤ) < w.bytesWritten + line.length

instance (w : FileWriter) (line : Text) : Decidable (w.Rolls line) :=
  inferInstanceAs (Decidable (_ < _))

/-- The line goes to the end of the file, and the file that is opened after it is spare. -/
def Harmless (w : FileWriter) (fs : FileSystem Text) (line : Text) : Prop :=
  (∀ os ∈ w.os, fs.AtEnd os) ∧ (w.Rolls line → fs.Spare w.nextName)

instance (w : FileWriter) (fs : FileSystem Text) (line : Text) :
    Decidable (w.Harmless fs line) :=
  inferInstanceAs (Decidable (_ ∧ _))

/-- The writer has its file open. -/
def IsOpen (w : FileWriter) (fs : FileSystem Text) : Prop :=
  ∃ os, w.os = some os ∧ os.name = logFileName w.name w.fileNumber ∧ os.name ∈ fs.opened

variable {w : FileWriter} {fs fs' : FileSystem Text} {d : World} {os : Stream Text}
  {line : Text} {lines : List Text}

theorem IsOpen.mono (h : w.IsOpen fs) (hopened : fs.opened <+: fs'.opened) : w.IsOpen fs' := by
  obtain ⟨os, hos, hname, hmem⟩ := h
  exact ⟨os, hos, hname, hopened.subset hmem⟩

/-! ## `rollFile` -/

theorem rollFile_isOpen (w : FileWriter) (d : World) :
    (w.rollFile d).1.IsOpen (w.rollFile d).2.files :=
  ⟨⟨w.nextName, 0⟩, rfl, rfl, List.mem_append_right _ (List.mem_singleton_self _)⟩

theorem rollFile_holdsEach (h : d.files.HoldsEach lines) (hspare : d.files.Spare w.nextName) :
    (w.rollFile d).2.files.HoldsEach lines := h.openTrunc hspare

theorem new_isOpen (logDirectory logFileName : Text) (rollSize : BitVec 32) (terminalOutput : Bool)
    (d : World) :
    (new logDirectory logFileName rollSize terminalOutput d).1.IsOpen
      (new logDirectory logFileName rollSize terminalOutput d).2.files := rollFile_isOpen _ _

theorem new_holdsEach {logDirectory logFileName : Text} (h : d.files.HoldsEach lines)
    (hspare : d.files.Spare (firstName logDirectory logFileName)) (rollSize : BitVec 32)
    (terminalOutput : Bool) :
    (new logDirectory logFileName rollSize terminalOutput d).2.files.HoldsEach lines :=
  rollFile_holdsEach h hspare

theorem nextName_ne (w : FileWriter) : w.nextName ≠ logFileName w.name w.fileNumber := by
  intro h
  have hnumber := logFileName_injective w.name h
  bv_omega

/-! ## `write` -/

theorem write_of_rolls (hos : w.os = some os) (h : w.Rolls line) :
    w.write d line = (w.afterLine os line).rollFile (w.worldAfter d os line) :=
  (write_eq hos d line).trans (if_pos h)

theorem write_of_not_rolls (hos : w.os = some os) (h : ¬ w.Rolls line) :
    w.write d line = (w.afterLine os line, w.worldAfter d os line) :=
  (write_eq hos d line).trans (if_neg h)

theorem isOpen_afterLine (hos : w.os = some os) (h : w.IsOpen d.files) :
    (w.afterLine os line).IsOpen (w.worldAfter d os line).files := by
  obtain ⟨os', hos', hname, hmem⟩ := h
  cases hos.symm.trans hos'
  exact ⟨os.advance line, rfl, hname, hmem⟩

theorem write_isOpen (h : w.IsOpen d.files) :
    (w.write d line).1.IsOpen (w.write d line).2.files := by
  obtain ⟨os, hos, -⟩ := id h
  by_cases hrolls : w.Rolls line
  · rw [write_of_rolls hos hrolls]
    exact rollFile_isOpen _ _
  · rw [write_of_not_rolls hos hrolls]
    exact isOpen_afterLine hos h

/-- A harmless write takes nothing out of the files and adds its line. -/
theorem write_holdsEach (h : w.IsOpen d.files) (hharmless : w.Harmless d.files line)
    (hlines : d.files.HoldsEach lines) : (w.write d line).2.files.HoldsEach (line :: lines) := by
  obtain ⟨os, hos, hname, hmem⟩ := h
  have hafter : (w.worldAfter d os line).files.HoldsEach (line :: lines) :=
    hlines.write hmem (hharmless.1 os hos)
  by_cases hrolls : w.Rolls line
  · rw [write_of_rolls hos hrolls]
    refine rollFile_holdsEach hafter fun hopened => ?_
    have hne : w.nextName ≠ os.name := hname ▸ nextName_ne w
    exact (FileSystem.content_write hne).trans (hharmless.2 hrolls hopened)
  · rwa [write_of_not_rolls hos hrolls]

/-! ## Where the streams stand after `write` -/

/-- The writer stays in its file or goes on to the next, and stands at the end. -/
theorem write_atEnd (hos : w.os = some os) (hend : d.files.AtEnd os) (line : Text) :
    ∀ os' ∈ (w.write d line).1.os, (w.write d line).2.files.AtEnd os' ∧
      (os'.name = os.name ∨ w.Rolls line ∧ os'.name = w.nextName) := by
  intro os' hos'
  by_cases hrolls : w.Rolls line
  · rw [write_of_rolls hos hrolls] at hos' ⊢
    obtain rfl := Option.some.inj hos'
    exact ⟨FileSystem.atEnd_openTrunc, .inr ⟨hrolls, rfl⟩⟩
  · rw [write_of_not_rolls hos hrolls] at hos' ⊢
    obtain rfl := Option.some.inj hos'
    exact ⟨hend.advance, .inl rfl⟩

/-- A stream on another file keeps its place. -/
theorem write_atEnd_of_ne (hos : w.os = some os) {os' : Stream Text} (hend : d.files.AtEnd os')
    (hne : os'.name ≠ os.name) (hnext : w.Rolls line → os'.name ≠ w.nextName) :
    (w.write d line).2.files.AtEnd os' := by
  by_cases hrolls : w.Rolls line
  · rw [write_of_rolls hos hrolls]
    exact (hend.write hne).openTrunc (hnext hrolls)
  · rw [write_of_not_rolls hos hrolls]
    exact hend.write hne

end FileWriter

end ZephyrLog
