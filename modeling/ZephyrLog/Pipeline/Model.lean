import ZephyrLog.AsyncLogger.Model
import ZephyrLog.FileWriter.Model
import ZephyrLog.LogLine.RoundTrip

/-!
# From the log statement to the files

The whole way of a line: a statement builds a `LogLine` and `add` moves it into the buffer; the
worker moves it out and calls `FileWriter::write`, which calls `stringify` on it.  Moving a line
leaves it as it is (`LogLine.hop_eq`), so the object in the buffer is the one built.

The worker's own `logline`, before the first line is moved into it, names no file, and a line moved
from need not even be sound: to write one of these has no defined behaviour, and no step here.
-/

namespace ZephyrLog

/-- A line whose `stringify` writes `text`; `fmt` is the library's formatting and `memory` what the
memory holds when the worker comes to the line. -/
structure PrintedLine (fmt : Format) where
  object : LogLine
  memory : Memory
  text : Text
  printed : (object.stringify fmt memory).map Output.text = some text

namespace PrintedLine

variable {fmt : Format}

/-- The line whose object is `l`, if `stringify` is defined on it. -/
def of (fmt : Format) (memory : Memory) (l : LogLine) : Option (PrintedLine fmt) :=
  match h : (l.stringify fmt memory).map Output.text with
  | some text => some ⟨l, memory, text, h⟩
  | none => none

theorem of_eq (line : PrintedLine fmt) : of fmt line.memory line.object = some line := by
  unfold of
  split
  · rename_i text h
    cases Option.some.inj (h.symm.trans line.printed)
    rfl
  · rename_i h
    cases h.symm.trans line.printed

/-- The line that a statement builds. -/
theorem exists_of_build (garbage : List.Vector Byte stackBufferSize) (header : Header)
    {calls : List (Memory × Argument)} {records : List Record}
    (hrecords : List.Forall₂ (fun call r => call.2.record call.1 = some r) calls records)
    (hlt : 37 + (records.flatMap Record.encode).length < 2 ^ 64) {memory : Memory} {text : Text}
    (htext : fmt.line memory header records = some text) :
    ∃ line : PrintedLine fmt, LogLine.build garbage header calls = some line.object ∧
      line.memory = memory ∧ line.text = text := by
  obtain ⟨l, hbuild, hsound, hcontents⟩ := LogLine.build_spec garbage header hrecords hlt
  obtain ⟨-, hdecode⟩ := LogLine.decode_of_contents hsound hcontents hlt
  have hprinted := (LogLine.stringify_of_decode hdecode fmt memory).trans htext
  exact ⟨⟨l, memory, text, hprinted⟩, hbuild, rfl, rfl⟩

end PrintedLine

namespace Pipeline

/-- The parameters of the logger's constructor. -/
structure Config where
  logDirectory : Text
  logFileName : Text
  rollSize : BitVec 32
  terminalOutput : Bool

/-- A logger on a buffer of type `B` with its file writer. -/
structure System (B L : Type) where
  logger : AsyncLogger B L
  /-- `m_writer` -/
  writer : FileWriter
  world : World

variable {B T L : Type} {fmt : Format}

namespace System

/-- The constructor of `m_writer` has opened the first file. -/
def init (buffer : B) (config : Config) (d : World) : System B L :=
  let (writer, world) := FileWriter.new config.logDirectory config.logFileName config.rollSize
    config.terminalOutput d
  { logger := .new buffer, writer, world }

variable [Pushed L (PrintedLine fmt)] [BufferBase B T (PrintedLine fmt) L]

/-- `m_writer.write(logline)`, if that is the worker's next operation. -/
def write (s : System B L) : Option (FileWriter × World) :=
  match s.logger.worker, BufferBase.logline s.logger.buffer with
  | .write _, .line p =>
    ((Pushed.line p).object.stringify fmt (Pushed.line p).memory).map fun out =>
      s.writer.write s.world out.text
  | .write _, _ => none
  | _, _ => some (s.writer, s.world)

/-- The next operation of the worker, with its effect on the files. -/
def work (s : System B L) : Option (System B L) := do
  let (writer, world) ← s.write
  let logger ← s.logger.step .work
  some { logger, writer, world }

/-- A step of one of the threads. -/
def step (s : System B L) : AsyncLogger.Label T (PrintedLine fmt) → Option (System B L)
  | .work => s.work
  | l => (s.logger.step l).map fun logger => { s with logger }

end System

variable [Pushed L (PrintedLine fmt)] [BufferBase B T (PrintedLine fmt) L]

/-- A logger on the buffer `b`, with its file writer. -/
def machine (b : B) (config : Config) (d : World) :
    Machine (System B L) (AsyncLogger.Label T (PrintedLine fmt)) where
  init := .init b config d
  step := System.step

/-- Every `add` has returned before the destructor begins, and none begins after that. -/
def AddsReturned (s : System B L) (l : AsyncLogger.Label T (PrintedLine fmt)) : Prop :=
  AsyncLogger.AddsReturned s.logger l

instance (s : System B L) (l : AsyncLogger.Label T (PrintedLine fmt))
    [Decidable (BufferBase.NoPushInFlight s.logger.buffer)] : Decidable (AddsReturned s l) :=
  inferInstanceAs (Decidable (AsyncLogger.AddsReturned s.logger l))

/-- The texts of some lines. -/
def texts (lines : List L) : List Text :=
  lines.map fun p => (Pushed.line p).text

end Pipeline

end ZephyrLog
