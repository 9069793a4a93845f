import ZephyrLog.LogLine.RoundTrip

/-!
# Formatting later

A line is formatted by the worker thread some time after its arguments were streamed.  The encoders
copy every value but that of an array, of which they keep the address; `stringify` reads the
characters there when it runs.  So each argument has the text it had at its `operator<<` exactly
when the C strings in the arrays are still the same (`deferred_eq_immediate_iff`).
-/

namespace ZephyrLog

/-- The text of an argument at the moment of its call.  A null pointer has none. -/
def Argument.text (fmt : Format) (mem : Memory) : Argument → Option Text
  | .char arg => some [arg]
  | .int32 arg => some (fmt.int32 arg)
  | .uint32 arg => some (fmt.uint32 arg)
  | .int64 arg => some (fmt.int64 arg)
  | .uint64 arg => some (fmt.uint64 arg)
  | .double arg => some (fmt.double arg)
  | .string arg => some arg
  | .array _ arg => cString mem arg
  | .pointer _ arg => if arg = 0 then some [] else cString mem arg

/-- Whether the argument is no array, or an array that holds the same C string at both moments. -/
def Argument.Kept (mem later : Memory) (arg : Argument) : Prop :=
  ∀ isConst s, arg = .array isConst s → cString later s = cString mem s

variable {fmt : Format} {mem later : Memory}

/-- The record of an argument has, at a later moment, the text that the argument had. -/
theorem record_eq_text_iff {arg : Argument} {r : Record} (hr : arg.record mem = some r) :
    fmt.record later r = arg.text fmt mem ↔ arg.Kept mem later := by
  -- only an array has a text that depends on the memory at the later moment
  have copied : fmt.record later r = arg.text fmt mem → (∀ isConst s, arg ≠ .array isConst s) →
      (fmt.record later r = arg.text fmt mem ↔ arg.Kept mem later) :=
    fun h hne => iff_of_true h fun isConst s heq => absurd heq (hne isConst s)
  cases arg with
  | array isConst s =>
    obtain rfl := Option.some.inj hr
    constructor
    · rintro h _ _ heq
      cases heq
      exact h
    · exact fun h => h isConst s rfl
  | pointer isConst s =>
    refine copied ?_ (by simp)
    by_cases hnull : s = 0
    · obtain rfl := Option.some.inj ((if_pos hnull).symm.trans hr)
      exact (if_pos hnull).symm
    · obtain ⟨text, htext, rfl⟩ := Option.map_eq_some_iff.1 ((if_neg hnull).symm.trans hr)
      exact htext.symm.trans (if_neg hnull).symm
  | _ =>
    obtain rfl := Option.some.inj hr
    exact copied rfl (by simp)

theorem map_record_eq_map_text_iff {calls : List (Memory × Argument)} {records : List Record}
    (hrecords : List.Forall₂ (fun call r => call.2.record call.1 = some r) calls records) :
    records.map (fmt.record later) = calls.map (fun call => call.2.text fmt call.1) ↔
      ∀ call ∈ calls, call.2.Kept call.1 later := by
  induction hrecords with
  | nil => simp
  | cons hr _ ih =>
    rw [List.map_cons, List.map_cons, List.cons.injEq, ih, record_eq_text_iff hr,
      List.forall_mem_cons]

namespace LogLine

/-- The texts that `stringify` writes for the arguments. -/
def argumentTexts (fmt : Format) (mem : Memory) (l : LogLine) : Option (List (Option Text)) :=
  (decode l.block l.bytesUsed).map fun decoded => decoded.tokens.map (fmt.token mem)

/-- `stringify` writes the header, the texts of the arguments and a newline. -/
theorem stringify_eq_argumentTexts (fmt : Format) (mem : Memory) (l : LogLine) :
    (l.stringify fmt mem).map Output.text = (do
      let decoded ← decode l.block l.bytesUsed
      let top ← fmt.header mem decoded.header
      let arguments ← l.argumentTexts fmt mem
      let texts ← arguments.mapM id
      some (top ++ texts.flatten ++ ascii "\n")) := by
  simp only [stringify, argumentTexts, bind, Option.bind]
  cases decode l.block l.bytesUsed with
  | none => rfl
  | some decoded =>
    simp only [Option.map_some, List.mapM_map, Function.id_comp]
    cases fmt.header mem decoded.header with
    | none => rfl
    | some top => cases decoded.tokens.mapM (fmt.token mem) <;> rfl

theorem argumentTexts_build (garbage : List.Vector Byte stackBufferSize) (header : Header)
    (calls : List (Memory × Argument)) (records : List Record)
    (hrecords : List.Forall₂ (fun call r => call.2.record call.1 = some r) calls records)
    (hlt : 37 + (records.flatMap Record.encode).length < 2 ^ 64) (hops : List Hop) :
    ∃ l, build garbage header calls = some l ∧ ∀ (fmt : Format) (mem : Memory),
      (hops.foldl LogLine.hop l).argumentTexts fmt mem
        = some (records.map (fmt.record mem)) := by
  obtain ⟨l, hbuild, hsound, hcontents⟩ := build_spec garbage header hrecords hlt
  obtain ⟨-, hblock⟩ := decode_of_contents hsound hcontents hlt
  refine ⟨l, hbuild, fun fmt mem => ?_⟩
  rw [foldl_hop_eq, argumentTexts, hblock, Option.map_some, List.map_map]
  rfl

/-- The texts written when a line is formatted at a later moment are those that its arguments had
at their calls if and only if no array among them holds another C string by then. -/
theorem deferred_eq_immediate_iff (garbage : List.Vector Byte stackBufferSize) (header : Header)
    (calls : List (Memory × Argument)) (records : List Record)
    (hrecords : List.Forall₂ (fun call r => call.2.record call.1 = some r) calls records)
    (hlt : 37 + (records.flatMap Record.encode).length < 2 ^ 64) (hops : List Hop) (fmt : Format)
    (later : Memory) :
    ∃ l, build garbage header calls = some l ∧
      ((hops.foldl LogLine.hop l).argumentTexts fmt later
          = some (calls.map fun call => call.2.text fmt call.1) ↔
        ∀ call ∈ calls, call.2.Kept call.1 later) := by
  obtain ⟨l, hbuild, htexts⟩ := argumentTexts_build garbage header calls records hrecords hlt hops
  refine ⟨l, hbuild, ?_⟩
  rw [htexts, Option.some.injEq]
  exact map_record_eq_map_text_iff hrecords

/-- A number and an array that keeps its characters. -/
theorem deferred_eq_immediate_iff_two :
    ∃ l, build (.replicate _ 0) ⟨1, 2, 3, 4, 5, .info⟩
        [(fun _ => [], .int32 7), (fun _ => [97, 98, 99, 0], .array true 16)] = some l ∧
      l.argumentTexts ⟨fun _ => [], fun _ => [], fun _ => [55], fun _ => [], fun _ => [],
          fun _ => [], fun _ => []⟩ (fun _ => [97, 98, 99, 0])
        = some [some [55], some [97, 98, 99]] := by
  obtain ⟨l, hbuild, htexts⟩ := deferred_eq_immediate_iff (.replicate _ 0) ⟨1, 2, 3, 4, 5, .info⟩
    [(fun _ => [], .int32 7), (fun _ => [97, 98, 99, 0], .array true 16)]
    [.int32 7, .stringLiteral 16] (.cons rfl (.cons rfl .nil)) (by decide) []
    ⟨fun _ => [], fun _ => [], fun _ => [55], fun _ => [], fun _ => [], fun _ => [], fun _ => []⟩
    (fun _ => [97, 98, 99, 0])
  refine ⟨l, hbuild, htexts.2 fun call hcall isConst s heq => ?_⟩
  simp only [List.mem_cons, List.not_mem_nil, or_false] at hcall
  rcases hcall with rfl | rfl
  · cases heq
  · rfl

/-- The characters of a `char buf[4]` are overwritten between `line << buf` and `stringify`. -/
theorem exists_deferred_ne_immediate :
    ∃ l, build (.replicate _ 0) ⟨1, 2, 3, 4, 5, .info⟩
        [(fun _ => [97, 98, 99, 0], .array false 16)] = some l ∧
      ∀ fmt, (Argument.array false 16).text fmt (fun _ => [97, 98, 99, 0]) = some [97, 98, 99] ∧
        l.argumentTexts fmt (fun _ => [120, 98, 99, 0]) = some [some [120, 98, 99]] := by
  obtain ⟨l, hbuild, htexts⟩ := argumentTexts_build (.replicate _ 0) ⟨1, 2, 3, 4, 5, .info⟩
    [(fun _ => [97, 98, 99, 0], .array false 16)] [.stringLiteral 16] (.cons rfl .nil)
    (by decide) []
  exact ⟨l, hbuild, fun fmt => ⟨rfl, htexts fmt _⟩⟩

end LogLine

end ZephyrLog
