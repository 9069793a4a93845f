import Mathlib.Data.Vector.Basic
import ZephyrLog.Lib.Bytes

/-!
# The log line

A `LogLine` is a byte buffer, on the stack or on the heap, that holds a header and the arguments
streamed into it, each as a tag byte and its value.  The constructor and `operator<<` write the
bytes; `stringify` reads them back and formats them.  Sizes are those of a 64-bit target.

Every access to the buffer checks that it lies in the buffer: an operation has no value where the
program would read or write out of bounds, or reads a C string that does not end.  An operation that
allocates ends in one of two ways: `resizeBufferIfNeeded` and `stream` are the calls that return,
`resizeBadAlloc` and `streamBadAlloc` those in which `std::make_unique` throws.  How the standard
library formats numbers, thread ids and local time is given by `Format`.
-/

namespace ZephyrLog

/-- The value of a pointer. -/
abbrev Ptr := BitVec 64

/-- Characters written to a stream. -/
abbrev Text := List Byte

/-- The characters of a string literal. -/
def ascii (s : String) : Text := s.toList.map fun c => BitVec.ofNat 8 c.toNat

/-- The memory of the program outside the lines: for each address, the bytes from there to the end
of the object it points into. -/
abbrev Memory := Ptr → List Byte

/-- The C string at `s`: the bytes before the first zero byte. -/
def cString (mem : Memory) (s : Ptr) : Option Text :=
  if s ≠ 0 ∧ 0 ∈ mem s then some ((mem s).takeWhile (· ≠ 0)) else none

/-- `enum class LogLevel : uint8_t`, which has every byte as a value. -/
structure LogLevel where
  value : Byte
  deriving DecidableEq, Repr

namespace LogLevel

/-- `LogLevel::DEBUG` -/
def debug : LogLevel := ⟨0⟩
/-- `LogLevel::INFO` -/
def info : LogLevel := ⟨1⟩
/-- `LogLevel::WARN` -/
def warn : LogLevel := ⟨2⟩
/-- `LogLevel::ERROR` -/
def error : LogLevel := ⟨3⟩
/-- `LogLevel::CRITICAL` -/
def critical : LogLevel := ⟨4⟩

/-- `toString(LogLevel)` -/
def toString (level : LogLevel) : Text :=
  if level = debug then ascii "DEBUG"
  else if level = info then ascii "INFO "
  else if level = warn then ascii "WARN "
  else if level = error then ascii "ERROR"
  else if level = critical then ascii "CRIT "
  else ascii "UNKN "

end LogLevel

/-- What the constructor writes in front of the arguments. -/
structure Header where
  timestamp : BitVec 64
  threadId : BitVec 64
  file : Ptr
  function : Ptr
  line : BitVec 32
  level : LogLevel
  deriving DecidableEq, Repr

/-- `LogLine::ArgType`. -/
inductive ArgType where
  | char
  | uint32
  | uint64
  | int32
  | int64
  | double
  | stringLiteral
  | cstring
  deriving DecidableEq, Repr

namespace ArgType

/-- `static_cast<uint8_t>` of the type. -/
def code : ArgType → Byte
  | char => 0
  | uint32 => 1
  | uint64 => 2
  | int32 => 3
  | int64 => 4
  | double => 5
  | stringLiteral => 6
  | cstring => 7

/-- The case of the `switch` in `stringify` that a tag byte selects; none is the `default`. -/
def ofCode (code : Byte) : Option ArgType :=
  match code.toNat with
  | 0 => some char
  | 1 => some uint32
  | 2 => some uint64
  | 3 => some int32
  | 4 => some int64
  | 5 => some double
  | 6 => some stringLiteral
  | 7 => some cstring
  | _ => none

@[simp] theorem ofCode_code (type : ArgType) : ofCode type.code = some type := by
  cases type <;> rfl

end ArgType

/-! ## The buffer -/

/-- The size of `m_stackBuffer`. -/
def stackBufferSize : ℕ := 224

/-- `m_bytesUsed`, `m_bufferSize`, `m_heapBuffer` and `m_stackBuffer`. -/
structure LogLine where
  bytesUsed : ℕ
  bufferSize : ℕ
  heapBuffer : Option (List Byte)
  stackBuffer : List.Vector Byte stackBufferSize

namespace LogLine

/-- The bytes that `buffer()` points into. -/
def block (l : LogLine) : List Byte := l.heapBuffer.getD l.stackBuffer.val

/-- `m_heapBuffer` is not null. -/
def isHeapAllocated (l : LogLine) : Bool := l.heapBuffer.isSome

/-- Writes at `buffer()` and adds to `m_bytesUsed`. -/
def put (l : LogLine) (bs : List Byte) : Option LogLine :=
  match l.heapBuffer with
  | none =>
    if h : l.bytesUsed + bs.length ≤ l.stackBuffer.val.length then
      some { l with
        bytesUsed := l.bytesUsed + bs.length
        stackBuffer :=
          ⟨splice l.stackBuffer.val l.bytesUsed bs, (length_splice h).trans l.stackBuffer.2⟩ }
    else none
  | some heap =>
    if l.bytesUsed + bs.length ≤ heap.length then
      some { l with
        bytesUsed := l.bytesUsed + bs.length
        heapBuffer := some (splice heap l.bytesUsed bs) }
    else none

/-- `std::make_unique<char[]>(size)`, which is zeroed, and the `memcpy` of `m_bytesUsed` bytes from
the old buffer into it. -/
def grow (l : LogLine) (size : ℕ) : Option LogLine := do
  let bytes ← load l.block 0 l.bytesUsed
  if bytes.length ≤ size then
    some { l with bufferSize := size, heapBuffer := some (splice (List.replicate size 0) 0 bytes) }
  else none

/-- The value that `resizeBufferIfNeeded` assigns to `m_bufferSize` before it allocates; none if it
returns at once. -/
def newBufferSize (l : LogLine) (additionalBytes : ℕ) : Option ℕ :=
  let required := (l.bytesUsed + additionalBytes) % 2 ^ 64
  if required ≤ l.bufferSize then none
  else if l.isHeapAllocated then some (max (2 * l.bufferSize % 2 ^ 64) required)
  else some (max 512 required)

/-- `resizeBufferIfNeeded`, when it returns. -/
def resizeBufferIfNeeded (l : LogLine) (additionalBytes : ℕ) : Option LogLine :=
  match l.newBufferSize additionalBytes with
  | none => some l
  | some size => l.grow size

/-- What `resizeBufferIfNeeded` leaves when `std::make_unique` throws `std::bad_alloc`:
`m_bufferSize` has its new value and the buffer is the old one. -/
def resizeBadAlloc (l : LogLine) (additionalBytes : ℕ) : Option LogLine :=
  (l.newBufferSize additionalBytes).map fun size => { l with bufferSize := size }

/-- The constructor; `garbage` is what the stack buffer holds before, and `header` has the results
of `now()` and `thisThreadId()`. -/
def construct (garbage : List.Vector Byte stackBufferSize) (header : Header) : Option LogLine := do
  let l : LogLine := ⟨0, stackBufferSize, none, garbage⟩
  let l ← l.put (toBytes 8 header.timestamp)
  let l ← l.put (toBytes 8 header.threadId)
  let l ← l.put (toBytes 8 header.file)
  let l ← l.put (toBytes 8 header.function)
  let l ← l.put (toBytes 4 header.line)
  l.put (toBytes 1 header.level.value)

/-- The encoding of a value of `size` bytes, which `encodeChar`, …, `encodeStringLiteral` share. -/
def encodeScalar (l : LogLine) (type : ArgType) (size : ℕ) (arg : BitVec (8 * size)) :
    Option LogLine := do
  let l ← l.resizeBufferIfNeeded (1 + size)
  let l ← l.put [type.code]
  l.put (toBytes size arg)

/-- `encodeChar` -/
def encodeChar (l : LogLine) (arg : BitVec 8) : Option LogLine := l.encodeScalar .char 1 arg

/-- `encodeInt32` -/
def encodeInt32 (l : LogLine) (arg : BitVec 32) : Option LogLine := l.encodeScalar .int32 4 arg

/-- `encodeUint32` -/
def encodeUint32 (l : LogLine) (arg : BitVec 32) : Option LogLine := l.encodeScalar .uint32 4 arg

/-- `encodeInt64` -/
def encodeInt64 (l : LogLine) (arg : BitVec 64) : Option LogLine := l.encodeScalar .int64 8 arg

/-- `encodeUint64` -/
def encodeUint64 (l : LogLine) (arg : BitVec 64) : Option LogLine := l.encodeScalar .uint64 8 arg

/-- `encodeDouble`, of a `double` given by its bits. -/
def encodeDouble (l : LogLine) (arg : BitVec 64) : Option LogLine := l.encodeScalar .double 8 arg

/-- `encodeStringLiteral`: only the address is stored. -/
def encodeStringLiteral (l : LogLine) (s : Ptr) : Option LogLine :=
  l.encodeScalar .stringLiteral 8 s

/-- `encodeCString(const char* s, size_t len)`, given the `len` bytes at `s`. -/
def encodeCString (l : LogLine) (s : List Byte) : Option LogLine := do
  let l ← l.resizeBufferIfNeeded ((1 + 8 + s.length) % 2 ^ 64)
  let l ← l.put [ArgType.cstring.code]
  let l ← l.put (toBytes 8 (BitVec.ofNat 64 s.length))
  if 0 < s.length then l.put s else some l

/-- `encodeCString(const char* s)`. -/
def encodeCStringPtr (l : LogLine) (mem : Memory) (s : Ptr) : Option LogLine :=
  if s = 0 then l.encodeCString [] else cString mem s >>= l.encodeCString

end LogLine

/-- An argument of `operator<<`, by its static type. -/
inductive Argument where
  | char (arg : BitVec 8)
  | int32 (arg : BitVec 32)
  | uint32 (arg : BitVec 32)
  | int64 (arg : BitVec 64)
  | uint64 (arg : BitVec 64)
  | double (arg : BitVec 64)
  /-- `const std::string&` -/
  | string (arg : List Byte)
  /-- `char*` or `const char*` -/
  | pointer (isConst : Bool) (arg : Ptr)
  /-- `char[N]` or `const char[N]`, by the address of its first element -/
  | array (isConst : Bool) (arg : Ptr)
  deriving DecidableEq, Repr

namespace LogLine

/-- `operator<<`, called while the memory is `mem`, when it returns. -/
def stream (mem : Memory) (l : LogLine) : Argument → Option LogLine
  | .char arg => l.encodeChar arg
  | .int32 arg => l.encodeInt32 arg
  | .uint32 arg => l.encodeUint32 arg
  | .int64 arg => l.encodeInt64 arg
  | .uint64 arg => l.encodeUint64 arg
  | .double arg => l.encodeDouble arg
  | .string arg => l.encodeCString arg
  -- `if constexpr (std::is_array_v<…>)`: arrays are stored by address, whether `const` or not
  | .array _ arg => l.encodeStringLiteral arg
  | .pointer _ arg => l.encodeCStringPtr mem arg

/-- The bytes that the encoder of the argument asks `resizeBufferIfNeeded` for, which it calls
before it writes anything. -/
def additionalBytes (mem : Memory) : Argument → Option ℕ
  | .char _ => some (1 + 1)
  | .int32 _ | .uint32 _ => some (1 + 4)
  | .int64 _ | .uint64 _ | .double _ | .array _ _ => some (1 + 8)
  | .string arg => some ((1 + 8 + arg.length) % 2 ^ 64)
  | .pointer _ arg =>
    if arg = 0 then some (1 + 8)
    else (cString mem arg).map fun s => (1 + 8 + s.length) % 2 ^ 64

/-- What `operator<<` leaves when `std::make_unique` throws in it. -/
def streamBadAlloc (mem : Memory) (l : LogLine) (arg : Argument) : Option LogLine := do
  l.resizeBadAlloc (← additionalBytes mem arg)

/-- A statement that constructs a line and streams arguments into it, each call with the memory of
its moment. -/
def build (garbage : List.Vector Byte stackBufferSize) (header : Header)
    (calls : List (Memory × Argument)) : Option LogLine := do
  let l ← construct garbage header
  calls.foldlM (fun l call => l.stream call.1 call.2) l

/-- `LogLine(LogLine&&)`: the new line and what is left of the other. -/
def moveConstruct (other : LogLine) : LogLine × LogLine :=
  (⟨other.bytesUsed, other.bufferSize, other.heapBuffer, other.stackBuffer⟩,
    { other with heapBuffer := none })

/-- `operator=(LogLine&&)`: the line assigned to and what is left of the other. -/
def moveAssign (l other : LogLine) : LogLine × LogLine :=
  ({ l with
      bytesUsed := other.bytesUsed
      bufferSize := other.bufferSize
      heapBuffer := other.heapBuffer
      stackBuffer := other.stackBuffer },
    { other with heapBuffer := none })

end LogLine

/-- Moving a line into another: a new one, or an existing one. -/
inductive Hop where
  | construct
  | assign (target : LogLine)

/-- The line that receives `l`. -/
def LogLine.hop (l : LogLine) : Hop → LogLine
  | .construct => (moveConstruct l).1
  | .assign target => (moveAssign target l).1

/-! ## Reading -/

/-- A type and a value read by `stringify`. -/
inductive Record where
  | char (val : BitVec 8)
  | int32 (val : BitVec 32)
  | uint32 (val : BitVec 32)
  | int64 (val : BitVec 64)
  | uint64 (val : BitVec 64)
  | double (val : BitVec 64)
  | stringLiteral (s : Ptr)
  | cstring (val : List Byte)
  deriving DecidableEq, Repr

/-- One pass of the loop in `stringify`. -/
inductive Token where
  | record (r : Record)
  /-- The `default` branch: the tag is skipped. -/
  | skipped (code : Byte)
  deriving DecidableEq, Repr

/-- What `stringify` reads; `stop` is where the cursor stands after the loop. -/
structure Decoded where
  header : Header
  tokens : List Token
  stop : ℕ
  deriving DecidableEq, Repr

/-- The reads of `stringify` in front of its loop. -/
def readHeader (block : List Byte) : Option Header := do
  let timestamp ← loadInt block 0 8
  let threadId ← loadInt block 8 8
  let file ← loadInt block 16 8
  let function ← loadInt block 24 8
  let line ← loadInt block 32 4
  let level ← loadInt block 36 1
  some ⟨timestamp, threadId, file, function, line, ⟨level⟩⟩

/-- A case of the `switch` that reads a value of `size` bytes after the tag at `b`. -/
def readScalar (block : List Byte) (b size : ℕ) (record : BitVec (8 * size) → Record) :
    Option (Token × ℕ) :=
  (loadInt block (b + 1) size).map fun val => (.record (record val), size)

/-- The body of the loop: the token whose tag is at `b` and the number of bytes after the tag. -/
def readToken (block : List Byte) (b : ℕ) : Option (Token × ℕ) := do
  let code ← loadInt block b 1
  match ArgType.ofCode code with
  | some .char => readScalar block b 1 .char
  | some .int32 => readScalar block b 4 .int32
  | some .uint32 => readScalar block b 4 .uint32
  | some .int64 => readScalar block b 8 .int64
  | some .uint64 => readScalar block b 8 .uint64
  | some .double => readScalar block b 8 .double
  | some .stringLiteral => readScalar block b 8 .stringLiteral
  | some .cstring =>
    let len ← loadInt block (b + 1) 8
    let val ← load block (b + 1 + 8) len.toNat
    some (.record (.cstring val), 8 + len.toNat)
  | none => some (.skipped code, 0)

/-- The reads of `stringify` on a buffer of which `used` bytes are in use. -/
def decode (block : List Byte) (used : ℕ) : Option Decoded := do
  let header ← readHeader block
  let (tokens, stop) ← scan (readToken block) used 37
  some ⟨header, tokens, stop⟩

/-! ## Formatting -/

/-- The formatting that the standard library does. -/
structure Format where
  /-- `strftime` with `"%Y-%m-%d %T."` at the local time of a number of seconds. -/
  localTime : ℕ → Text
  threadId : BitVec 64 → Text
  int32 : BitVec 32 → Text
  uint32 : BitVec 32 → Text
  int64 : BitVec 64 → Text
  uint64 : BitVec 64 → Text
  double : BitVec 64 → Text

namespace Format

variable (fmt : Format) (mem : Memory)

/-- `"%06llu"` -/
def sixDigits (n : ℕ) : Text :=
  let digits := (Nat.toDigits 10 n).map fun c => BitVec.ofNat 8 c.toNat
  List.replicate (6 - digits.length) (BitVec.ofNat 8 '0'.toNat) ++ digits

/-- `formatTimestamp`: the seconds as local time, and the microseconds. -/
def formatTimestamp (timestamp : BitVec 64) : Text :=
  ascii "[" ++ fmt.localTime (timestamp.toNat / 1000000) ++ sixDigits (timestamp.toNat % 1000000)
    ++ ascii "]"

/-- What `stringify` writes in front of the arguments. -/
def header (h : Header) : Option Text := do
  let file ← cString mem h.file
  let function ← cString mem h.function
  some (fmt.formatTimestamp h.timestamp ++ ascii "[" ++ h.level.toString ++ ascii "]"
    ++ ascii "[" ++ fmt.threadId h.threadId ++ ascii "]"
    ++ ascii "[" ++ file ++ ascii ":" ++ function ++ ascii ":" ++ fmt.uint32 h.line ++ ascii "] ")

/-- What `stringify` writes for a record. -/
def record : Record → Option Text
  | .char val => some [val]
  | .int32 val => some (fmt.int32 val)
  | .uint32 val => some (fmt.uint32 val)
  | .int64 val => some (fmt.int64 val)
  | .uint64 val => some (fmt.uint64 val)
  | .double val => some (fmt.double val)
  | .stringLiteral s => cString mem s
  | .cstring val => some val

/-- What `stringify` writes in one turn of its loop. -/
def token : Token → Option Text
  | .record r => fmt.record mem r
  | .skipped _ => some []

end Format

/-- What `stringify` writes to the stream and how often it flushes it. -/
structure Output where
  text : Text
  flushes : ℕ
  deriving DecidableEq, Repr

namespace LogLine

/-- `stringify`, called while the memory is `mem`. -/
def stringify (fmt : Format) (mem : Memory) (l : LogLine) : Option Output := do
  let decoded ← decode l.block l.bytesUsed
  let header ← fmt.header mem decoded.header
  let texts ← decoded.tokens.mapM (fmt.token mem)
  -- `std::endl` flushes, and a critical line is flushed once more
  some
    { text := header ++ texts.flatten ++ ascii "\n"
      flushes := if LogLevel.critical.value ≤ decoded.header.level.value then 2 else 1 }

end LogLine

end ZephyrLog
