import ZephyrLog.LogLine.Encode

/-!
# Reading a line back

The reads of `stringify` undo the encoders: a tag selects the case that reads the value written
after it (`readToken_append`), so on the bytes of a header and of records `decode` gives them back
and stops behind the last of them (`decode_append`).  A move leaves the line it moves into with
all of the other line (`hop_eq`), so the same holds of a line that was moved any number of times.
-/

namespace ZephyrLog

/-! ## Records -/

theorem toBytes_one (b : BitVec 8) : toBytes 1 b = [b] := by
  simp [toBytes, littleEndian]

theorem readScalar_append (pre post : List Byte) (code : Byte) {size : ℕ} (val : BitVec (8 * size))
    (record : BitVec (8 * size) → Record) :
    readScalar (pre ++ code :: toBytes size val ++ post) pre.length size record
      = some (.record (record val), size) := by
  have hblock : pre ++ code :: toBytes size val ++ post
      = pre ++ [code] ++ toBytes size val ++ post := by simp
  have hload := loadInt_append (pre ++ [code]) post size val
  rw [List.length_append, List.length_singleton] at hload
  rw [readScalar, hblock, hload, Option.map_some]

theorem loadInt_code (pre post : List Byte) (r : Record) :
    loadInt (pre ++ r.encode ++ post) pre.length 1 = some r.type.code := by
  have hload := loadInt_append pre (r.payload ++ post) 1 r.type.code
  rwa [toBytes_one, List.append_assoc, List.singleton_append, ← List.cons_append,
    ← List.append_assoc] at hload

/-- A record is read back from wherever it lies in the buffer. -/
theorem readToken_append (pre post : List Byte) {r : Record} (hr : r.encode.length < 2 ^ 64) :
    readToken (pre ++ r.encode ++ post) pre.length = some (.record r, r.payload.length) := by
  unfold readToken
  rw [loadInt_code]
  simp only [bind, Option.bind, ArgType.ofCode_code]
  cases r with
  | cstring val =>
    have hlen : (BitVec.ofNat 64 val.length).toNat = val.length := by
      rw [BitVec.toNat_ofNat, Nat.mod_eq_of_lt]
      simp only [Record.length_encode, Record.payload, List.length_append] at hr
      omega
    have hsize := loadInt_append (pre ++ [ArgType.cstring.code]) (val ++ post) 8
      (BitVec.ofNat 64 val.length)
    have hchars := load_append
      (pre ++ [ArgType.cstring.code] ++ toBytes 8 (BitVec.ofNat 64 val.length)) val post
    simp only [List.length_append, List.length_singleton, length_toBytes] at hsize hchars
    have hblock : pre ++ (Record.cstring val).encode ++ post = pre ++ [ArgType.cstring.code]
        ++ toBytes 8 (BitVec.ofNat 64 val.length) ++ (val ++ post) := by
      simp [Record.encode, Record.payload, Record.type]
    rw [hblock]
    simp only [Record.type, hsize, hlen]
    rw [← List.append_assoc, hchars]
    simp [Record.payload]
  | _ => exact readScalar_append pre post _ _ _

/-! ## Whole lines -/

theorem readHeader_append (h : Header) (post : List Byte) :
    readHeader (h.encode ++ post) = some h := by
  obtain ⟨timestamp, threadId, file, function, line, level⟩ := h
  have fields : Header.encode ⟨timestamp, threadId, file, function, line, level⟩ ++ post
      = toBytes 8 timestamp ++ toBytes 8 threadId ++ toBytes 8 file ++ toBytes 8 function
        ++ toBytes 4 line ++ toBytes 1 level.value ++ post := rfl
  have h₁ := loadInt_append [] (toBytes 8 threadId ++ toBytes 8 file ++ toBytes 8 function
    ++ toBytes 4 line ++ toBytes 1 level.value ++ post) 8 timestamp
  have h₂ := loadInt_append (toBytes 8 timestamp) (toBytes 8 file ++ toBytes 8 function
    ++ toBytes 4 line ++ toBytes 1 level.value ++ post) 8 threadId
  have h₃ := loadInt_append (toBytes 8 timestamp ++ toBytes 8 threadId) (toBytes 8 function
    ++ toBytes 4 line ++ toBytes 1 level.value ++ post) 8 file
  have h₄ := loadInt_append (toBytes 8 timestamp ++ toBytes 8 threadId ++ toBytes 8 file)
    (toBytes 4 line ++ toBytes 1 level.value ++ post) 8 function
  have h₅ := loadInt_append (toBytes 8 timestamp ++ toBytes 8 threadId ++ toBytes 8 file
    ++ toBytes 8 function) (toBytes 1 level.value ++ post) 4 line
  have h₆ := loadInt_append (toBytes 8 timestamp ++ toBytes 8 threadId ++ toBytes 8 file
    ++ toBytes 8 function ++ toBytes 4 line) post 1 level.value
  simp only [List.nil_append, List.length_nil, List.append_assoc, List.length_append,
    length_toBytes, Nat.reduceAdd] at fields h₁ h₂ h₃ h₄ h₅ h₆
  simp only [readHeader, fields, h₁, h₂, h₃, h₄, h₅, h₆, bind, Option.bind]

/-- The bytes of a header and of records are read back, and nothing else is read. -/
theorem decode_append (h : Header) {records : List Record}
    (hlt : 37 + (records.flatMap Record.encode).length < 2 ^ 64) (post : List Byte) :
    decode (h.encode ++ records.flatMap Record.encode ++ post)
        (37 + (records.flatMap Record.encode).length)
      = some ⟨h, records.map .record, 37 + (records.flatMap Record.encode).length⟩ := by
  have hlen : (h.encode ++ records.flatMap Record.encode).length
      = 37 + (records.flatMap Record.encode).length := by
    rw [List.length_append, Header.length_encode]
  have hread : ∀ r ∈ records, ∀ pre post, ∃ n, r.encode.length = n + 1 ∧
      readToken (pre ++ r.encode ++ post) pre.length = some (.record r, n) := by
    intro r hr pre post
    have hle : r.encode.length ≤ (records.flatMap Record.encode).length :=
      (List.sublist_flatten_of_mem (List.mem_map_of_mem hr)).length_le
    exact ⟨_, r.length_encode, readToken_append pre post (by omega)⟩
  have hscan := scan_flatMap Record.encode Token.record readToken records hread h.encode post
  rw [hlen, Header.length_encode] at hscan
  have hheader : readHeader (h.encode ++ records.flatMap Record.encode ++ post) = some h := by
    rw [List.append_assoc]
    exact readHeader_append h _
  simp only [decode, hheader, hscan, bind, Option.bind]

namespace LogLine

/-- A line is left as it is by being moved. -/
theorem hop_eq (l : LogLine) (hop : Hop) : l.hop hop = l := by
  cases hop <;> rfl

theorem foldl_hop_eq (l : LogLine) (hops : List Hop) : hops.foldl LogLine.hop l = l := by
  induction hops with
  | nil => rfl
  | cons hop hops ih => rw [List.foldl_cons, hop_eq, ih]

/-- What `stringify` reads in a line with the given contents. -/
theorem decode_of_contents {l : LogLine} (hl : Sound l) {h : Header} {records : List Record}
    (hcontents : l.contents = h.encode ++ records.flatMap Record.encode)
    (hlt : 37 + (records.flatMap Record.encode).length < 2 ^ 64) :
    decode l.contents l.bytesUsed = some ⟨h, records.map .record, l.bytesUsed⟩ ∧
      decode l.block l.bytesUsed = some ⟨h, records.map .record, l.bytesUsed⟩ := by
  have hused : l.bytesUsed = 37 + (records.flatMap Record.encode).length := by
    rw [← hl.length_contents, hcontents, List.length_append, Header.length_encode]
  have hblock : l.block
      = h.encode ++ records.flatMap Record.encode ++ l.block.drop l.bytesUsed := by
    rw [← hcontents]
    exact (List.take_append_drop _ _).symm
  constructor
  · have := decode_append h hlt []
    rwa [List.append_nil, ← hcontents, ← hused] at this
  · have := decode_append h hlt (l.block.drop l.bytesUsed)
    rwa [← hblock, ← hused] at this

theorem mapM_token (fmt : Format) (mem : Memory) (records : List Record) :
    (records.map Token.record).mapM (fmt.token mem) = records.mapM (fmt.record mem) := by
  induction records with
  | nil => rfl
  | cons r records ih => rw [List.map_cons, List.mapM_cons, List.mapM_cons, ih]; rfl

end LogLine

/-- The text of a line: its header, the texts of its arguments and a newline. -/
def Format.line (fmt : Format) (mem : Memory) (header : Header) (records : List Record) :
    Option Text := do
  let top ← fmt.header mem header
  let texts ← records.mapM (fmt.record mem)
  some (top ++ texts.flatten ++ ascii "\n")

namespace LogLine

theorem stringify_of_decode {l : LogLine} {header : Header} {records : List Record} {stop : ℕ}
    (hdecode : decode l.block l.bytesUsed = some ⟨header, records.map .record, stop⟩)
    (fmt : Format) (mem : Memory) :
    (l.stringify fmt mem).map Output.text = fmt.line mem header records := by
  simp only [stringify, Format.line, hdecode, mapM_token, bind, Option.bind]
  cases fmt.header mem header with
  | none => rfl
  | some top => cases records.mapM (fmt.record mem) <;> rfl

/-- A built and then moved line holds its header and its arguments: `stringify` reads exactly them
and stops at `m_bytesUsed`, on the bytes in use alone as on the whole buffer, and writes the header,
the texts of the arguments and a newline. -/
theorem stringify_build (garbage : List.Vector Byte stackBufferSize) (header : Header)
    (calls : List (Memory × Argument)) (records : List Record)
    (hrecords : List.Forall₂ (fun call r => call.2.record call.1 = some r) calls records)
    (hlt : 37 + (records.flatMap Record.encode).length < 2 ^ 63) (hops : List Hop) :
    ∃ l moved, build garbage header calls = some l ∧ hops.foldl LogLine.hop l = moved ∧
      moved.bytesUsed = 37 + (records.flatMap Record.encode).length ∧
      decode (moved.block.take moved.bytesUsed) moved.bytesUsed
        = some ⟨header, records.map .record, moved.bytesUsed⟩ ∧
      decode moved.block moved.bytesUsed
        = some ⟨header, records.map .record, moved.bytesUsed⟩ ∧
      ∀ (fmt : Format) (mem : Memory),
        (moved.stringify fmt mem).map Output.text = fmt.line mem header records := by
  have hlt' : 37 + (records.flatMap Record.encode).length < 2 ^ 64 := by omega
  obtain ⟨l, hbuild, hsound, hcontents⟩ := build_spec garbage header hrecords hlt'
  obtain ⟨hused, hblock⟩ := decode_of_contents hsound hcontents hlt'
  refine ⟨l, l, hbuild, foldl_hop_eq l hops, ?_, hused, hblock, stringify_of_decode hblock⟩
  rw [← hsound.length_contents, hcontents, List.length_append, Header.length_encode]

/-- An integer, a string with a zero byte, a `char*`, a null pointer and an array, in a line that is
moved into a new one and from there into an existing one. -/
theorem stringify_build_five :
    ∃ l moved, build (.replicate _ 0) ⟨1, 2, 3, 4, 5, .info⟩
        [(fun _ => [], .int32 7), (fun _ => [], .string [72, 0, 73]),
          (fun _ => [97, 98, 0, 99], .pointer false 8), (fun _ => [], .pointer true 0),
          (fun _ => [], .array true 16)] = some l ∧
      [Hop.construct, Hop.assign ⟨0, stackBufferSize, none, .replicate _ 0⟩].foldl LogLine.hop l
        = moved ∧
      moved.bytesUsed = 83 ∧
      decode moved.block moved.bytesUsed = some ⟨⟨1, 2, 3, 4, 5, .info⟩,
        [.record (.int32 7), .record (.cstring [72, 0, 73]), .record (.cstring [97, 98]),
          .record (.cstring []), .record (.stringLiteral 16)], moved.bytesUsed⟩ := by
  obtain ⟨l, moved, hbuild, hmoved, hused, -, hdecode, -⟩ := stringify_build (.replicate _ 0)
    ⟨1, 2, 3, 4, 5, .info⟩
    [(fun _ => [], .int32 7), (fun _ => [], .string [72, 0, 73]),
      (fun _ => [97, 98, 0, 99], .pointer false 8), (fun _ => [], .pointer true 0),
      (fun _ => [], .array true 16)]
    [.int32 7, .cstring [72, 0, 73], .cstring [97, 98], .cstring [], .stringLiteral 16]
    (.cons rfl (.cons rfl (.cons rfl (.cons rfl (.cons rfl .nil))))) (by decide)
    [Hop.construct, Hop.assign ⟨0, stackBufferSize, none, .replicate _ 0⟩]
  exact ⟨l, moved, hbuild, hmoved, hused, hdecode⟩

end LogLine

end ZephyrLog
