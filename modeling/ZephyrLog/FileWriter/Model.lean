import ZephyrLog.Lib.Files
import ZephyrLog.LogLine.Model

/-!
# The file writer

`FileWriter` writes lines to numbered files and goes on to the next file when the current one has
more than `m_rollSize` bytes.  A line is given by the text that its `stringify` writes.  Every open
and every write succeeds, `tellp` is exact, and what is written reaches the file at once.
-/

namespace ZephyrLog

/-- `std::to_string` of an unsigned number. -/
def decimal (n : ℕ) : Text := (Nat.toDigits 10 n).map fun c => BitVec.ofNat 8 c.toNat

/-- What the program writes to: the files and `std::cout`. -/
structure World where
  files : FileSystem Text
  cout : Text

/-- `FileWriter`: the members of the class. -/
structure FileWriter where
  fileNumber : BitVec 32
  /-- `std::streamoff` -/
  bytesWritten : ℤ
  rollSize : BitVec 32
  name : Text
  terminalOutput : Bool
  /-- `m_os`, when it is an open stream. -/
  os : Option (Stream Text)

namespace FileWriter

/-- The name of file number `fileNumber`. -/
def logFileName (name : Text) (fileNumber : BitVec 32) : Text :=
  name ++ ascii "." ++ decimal fileNumber.toNat ++ ascii ".txt"

/-- `rollFile`: the stream that was open is closed and the file of the next number is opened. -/
def rollFile (w : FileWriter) (d : World) : FileWriter × World :=
  let name := logFileName w.name (w.fileNumber + 1)
  ({ w with fileNumber := w.fileNumber + 1, bytesWritten := 0, os := some ⟨name, 0⟩ },
    { d with files := d.files.openTrunc name })

/-- The constructor, which opens the first file. -/
def new (logDirectory logFileName : Text) (rollSize : BitVec 32) (terminalOutput : Bool)
    (d : World) : FileWriter × World :=
  rollFile
    { fileNumber := 0, bytesWritten := 0, rollSize, name := logDirectory ++ logFileName,
      terminalOutput, os := none } d

/-- The line is written to the terminal, if that is wanted. -/
def echo (w : FileWriter) (d : World) (line : Text) : World :=
  if w.terminalOutput then { d with cout := d.cout ++ line } else d

/-- `write(LogLine&)` of a line with the text `line`. -/
def write (w : FileWriter) (d : World) (line : Text) : FileWriter × World :=
  match w.os with
  | none => (w, d)
  | some os =>
    let d₁ := w.echo d line
    let pos : ℤ := os.position
    let os₁ := os.advance line
    let d₂ := { d₁ with files := d₁.files.write os line }
    let written : ℤ := os₁.position - pos
    let w₁ := { w with
      os := some os₁
      bytesWritten := if 0 < written then w.bytesWritten + written else w.bytesWritten }
    if (w₁.rollSize.toNat : ℤ) < w₁.bytesWritten then w₁.rollFile d₂ else (w₁, d₂)

/-- The destructor closes the stream. -/
def close (w : FileWriter) : FileWriter := { w with os := none }

/-- A sequence of lines given to one writer. -/
def writeAll (w : FileWriter) (d : World) (lines : List Text) : FileWriter × World :=
  lines.foldl (fun x line => x.1.write x.2 line) (w, d)

end FileWriter

end ZephyrLog
