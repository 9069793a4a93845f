import ZephyrLog.Lib.Simulation
import ZephyrLog.LogLine.Objects

/-!
# Lines as values

To a program a line is a value, a header and the records of what was streamed into it, and a move
takes the value from one object to another.  `values` runs a program over such values, where an
object that was moved from has none and no allocation throws.  The objects simulate it, so wherever
a program over values is defined, the one over buffers is, and every object that has a value holds
its bytes (`objects_hold_values`).
-/

namespace ZephyrLog

namespace LogLine

/-- What a line stands for.  Its bytes can be counted in 64 bits. -/
structure Value where
  header : Header
  records : List Record
  size_lt : 37 + (records.flatMap Record.encode).length < 2 ^ 64

namespace Value

/-- A line without arguments. -/
def new (header : Header) : Value := ⟨header, [], by decide⟩

/-- The number of bytes of a value. -/
def size (v : Value) : ℕ := 37 + (v.records.flatMap Record.encode).length

/-- The bytes of a value. -/
def encode (v : Value) : List Byte := v.header.encode ++ v.records.flatMap Record.encode

theorem length_encode (v : Value) : v.encode.length = v.size := by
  rw [encode, List.length_append, Header.length_encode, size]

theorem size_append {records : List Record} (r : Record) :
    37 + ((records ++ [r]).flatMap Record.encode).length
      = 37 + (records.flatMap Record.encode).length + r.encode.length := by
  rw [List.flatMap_append, List.length_append, List.flatMap_singleton, Nat.add_assoc]

/-- A value with one record more. -/
def append (v : Value) (r : Record) (h : v.size + r.encode.length < 2 ^ 64) : Value :=
  ⟨v.header, v.records ++ [r], by rwa [size_append]⟩

theorem encode_append (v : Value) (r : Record) (h : v.size + r.encode.length < 2 ^ 64) :
    (v.append r h).encode = v.encode ++ r.encode := by
  simp [encode, append]

/-- Streaming an argument.  A pointer that is no C string has no record. -/
def stream (v : Value) (mem : Memory) (arg : Argument) : Option Value := do
  let r ← arg.record mem
  if h : v.size + r.encode.length < 2 ^ 64 then some (v.append r h) else none

theorem of_stream {v v' : Value} {mem : Memory} {arg : Argument} (h : v.stream mem arg = some v') :
    ∃ r hlt, arg.record mem = some r ∧ v' = v.append r hlt := by
  obtain ⟨r, hr, h⟩ := Option.bind_eq_some_iff.1 h
  obtain ⟨hlt, h⟩ := Option.dite_none_right_eq_some.1 h
  exact ⟨r, hlt, hr, (Option.some.inj h).symm⟩

end Value

/-! ## Programs over values -/

variable {ι : Type}

/-- The values of the objects constructed so far; an object that was moved from has none. -/
abbrev Values (ι : Type) := ι → Option (Option Value)

variable [DecidableEq ι]

/-- The value of `other` is now that of `i`. -/
def Values.move (s : Values ι) (i other : ι) (v : Option Value) : Values ι :=
  Function.update (Function.update s other (some none)) i (some v)

/-- One statement; only an object with a value can be streamed into, and no allocation throws. -/
def Values.step (s : Values ι) : Op ι → Option (Values ι)
  | .construct i _ header => some (Function.update s i (some (some (.new header))))
  | .stream i mem arg => do
    let v ← (s i).join
    let v' ← v.stream mem arg
    some (Function.update s i (some (some v')))
  | .badAlloc _ _ _ => none
  | .moveConstruct i other => if i = other then none else (s other).map (s.move i other)
  | .moveAssign i other => do
    let _ ← s i
    let v ← s other
    some (if i = other then s else s.move i other v)

/-- The operations of a program on values. -/
def values (ι : Type) [DecidableEq ι] : Machine (Values ι) (Op ι) where
  init := fun _ => none
  step := Values.step

/-! ## Objects that hold values -/

/-- The bytes in use are those of the value. -/
structure Holds (l : LogLine) (v : Value) : Prop extends Sound l where
  contents_eq : l.contents = v.encode

namespace Holds

variable {l : LogLine} {v : Value}

theorem bytesUsed_eq (h : Holds l v) : l.bytesUsed = v.size := by
  rw [← h.toSound.length_contents, h.contents_eq, v.length_encode]

theorem construct (garbage : List.Vector Byte stackBufferSize) (header : Header) :
    ∃ l, construct garbage header = some l ∧ Holds l (.new header) := by
  obtain ⟨l, hl, hsound, hcontents⟩ := construct_spec garbage header
  refine ⟨l, hl, hsound, ?_⟩
  rw [hcontents, Value.encode, Value.new]
  simp

theorem stream (h : Holds l v) {mem : Memory} {arg : Argument} {v' : Value}
    (hstream : v.stream mem arg = some v') :
    ∃ l', l.stream mem arg = some l' ∧ Holds l' v' := by
  obtain ⟨r, hlt, hr, rfl⟩ := Value.of_stream hstream
  obtain ⟨l', hl', happ⟩ := stream_appends h.toSound hr (by rwa [h.bytesUsed_eq])
  refine ⟨l', hl', happ.sound, ?_⟩
  rw [happ.contents_eq, h.contents_eq, v.encode_append]

/-- `stringify` writes the text of the value. -/
theorem text (h : Holds l v) (fmt : Format) (mem : Memory) :
    (l.stringify fmt mem).map Output.text = fmt.line mem v.header v.records := by
  obtain ⟨-, hdecode⟩ := decode_of_contents h.toSound h.contents_eq v.size_lt
  exact stringify_of_decode hdecode fmt mem

end Holds

/-- An object and its value. -/
inductive Represents : Option LogLine → Option (Option Value) → Prop where
  | absent : Represents none none
  | movedFrom (l : LogLine) : Represents (some l) (some none)
  | held {l : LogLine} {v : Value} (h : Holds l v) : Represents (some l) (some (some v))

/-- The objects of a program and their values. -/
def Represented (v : Values ι) (s : Objects ι) : Prop := ∀ i, Represents (s i) (v i)

theorem Represented.update {v : Values ι} {s : Objects ι} (h : Represented v s) (i : ι)
    {l : Option LogLine} {value : Option (Option Value)} (hl : Represents l value) :
    Represented (Function.update v i value) (Function.update s i l) := by
  intro j
  by_cases hji : j = i
  · subst hji
    rwa [Function.update_self, Function.update_self]
  · rw [Function.update_of_ne hji, Function.update_of_ne hji]
    exact h j

/-- A move leaves the value in the object moved into. -/
theorem Represented.move {v : Values ι} {s : Objects ι} (h : Represented v s) (i other : ι)
    {value : Option Value} {o : LogLine} (hvalue : Represents (some o) (some value)) :
    Represented (v.move i other value) (s.afterMove i other (moveConstruct o)) :=
  (h.update other (.movedFrom _)).update i hvalue

theorem Represents.of_some {l : Option LogLine} {value : Option Value}
    (h : Represents l (some value)) : ∃ o, l = some o ∧ Represents (some o) (some value) := by
  cases h with
  | movedFrom l => exact ⟨l, rfl, .movedFrom l⟩
  | held hl => exact ⟨_, rfl, .held hl⟩

theorem Represents.of_held {l : Option LogLine} {value : Value}
    (h : Represents l (some (some value))) : ∃ o, l = some o ∧ Holds o value := by
  cases h with
  | held hl => exact ⟨_, rfl, hl⟩

/-- Every statement over values is one over objects. -/
theorem values_simulated :
    (values ι).Simulates Machine.anyStep (objects ι) Machine.anyStep (fun _ op => some op)
      Represented where
  init := fun _ => .absent
  step := by
    intro v op v' s hrel _ hstep
    suffices h : ∃ s', s.step op = some s' ∧ Represented v' s' by
      obtain ⟨s', hs', hrel'⟩ := h
      exact ⟨s', ⟨trivial, hs'⟩, hrel'⟩
    cases op with
    | construct i garbage header =>
      obtain rfl := Option.some.inj hstep
      obtain ⟨l, hl, hholds⟩ := Holds.construct garbage header
      exact ⟨_, Option.map_eq_some_iff.2 ⟨l, hl, rfl⟩, hrel.update i (.held hholds)⟩
    | stream i mem arg =>
      obtain ⟨value, hvalue, hstep⟩ := Option.bind_eq_some_iff.1 hstep
      obtain ⟨value', hvalue', hstep⟩ := Option.bind_eq_some_iff.1 hstep
      obtain rfl := Option.some.inj hstep
      obtain ⟨l, hl, hholds⟩ := (Option.join_eq_some_iff.1 hvalue ▸ hrel i).of_held
      obtain ⟨l', hl', hholds'⟩ := hholds.stream hvalue'
      refine ⟨Function.update s i (some l'), ?_, hrel.update i (.held hholds')⟩
      simp only [Objects.step, hl, hl', bind, Option.bind]
    | badAlloc i mem arg => cases hstep
    | moveConstruct i other =>
      obtain ⟨hne, hstep⟩ := Option.ite_none_left_eq_some.1 hstep
      obtain ⟨value, hvalue, rfl⟩ := Option.map_eq_some_iff.1 hstep
      obtain ⟨o, ho, hrepr⟩ := (hvalue ▸ hrel other).of_some
      refine ⟨s.afterMove i other (LogLine.moveConstruct o), ?_, hrel.move i other hrepr⟩
      rw [Objects.step, if_neg hne, ho, Option.map_some]
    | moveAssign i other =>
      obtain ⟨target, htarget, hstep⟩ := Option.bind_eq_some_iff.1 hstep
      obtain ⟨value, hvalue, hstep⟩ := Option.bind_eq_some_iff.1 hstep
      obtain rfl := Option.some.inj hstep
      obtain ⟨l, hl, -⟩ := (htarget ▸ hrel i).of_some
      obtain ⟨o, ho, hrepr⟩ := (hvalue ▸ hrel other).of_some
      refine ⟨if i = other then s else s.afterMove i other (l.moveAssign o), ?_, ?_⟩
      · simp only [Objects.step, hl, ho, bind, Option.bind]
      · by_cases heq : i = other
        · rwa [if_pos heq, if_pos heq]
        · rw [if_neg heq, if_neg heq]
          exact hrel.move i other hrepr

/-- Lines are values: a program that streams only into objects that have a value is defined over
buffers wherever it is over values, and then `m_bytesUsed` of every object that has a value is the
size of the value, and `stringify` writes the text of the value, whatever was moved where. -/
theorem objects_hold_values {ops : List (Op ι)} {v : Values ι}
    (hops : (values ι).exec (values ι).init ops = some v) :
    ∃ s, (objects ι).exec (objects ι).init ops = some s ∧
      ∀ i value, v i = some (some value) → ∃ l, s i = some l ∧
        l.bytesUsed = value.size ∧ l.contents = value.encode ∧
        ∀ fmt mem, (l.stringify fmt mem).map Output.text
          = fmt.line mem value.header value.records := by
  obtain ⟨s, hs, hrel⟩ := values_simulated.exec values_simulated.init hops
  refine ⟨s, hs, fun i value hvalue => ?_⟩
  obtain ⟨l, hl, hholds⟩ := (hvalue ▸ hrel i).of_held
  exact ⟨l, hl, hholds.bytesUsed_eq, hholds.contents_eq, hholds.text⟩

/-- A line is moved into another one, which is streamed into and assigned back. -/
theorem objects_hold_values_back :
    ∃ s, (objects Bool).exec (objects Bool).init
        [.construct false (.replicate _ 0) ⟨1, 2, 3, 4, 5, .info⟩,
          .stream false (fun _ => []) (.string [72, 73]), .moveConstruct true false,
          .stream true (fun _ => []) (.int32 7), .moveAssign false true] = some s ∧
      ∃ l, s false = some l ∧ l.bytesUsed = 53 ∧
        ∀ fmt mem, (l.stringify fmt mem).map Output.text
          = fmt.line mem ⟨1, 2, 3, 4, 5, .info⟩ [.cstring [72, 73], .int32 7] := by
  obtain ⟨s, hs, hheld⟩ := objects_hold_values (show (values Bool).exec (values Bool).init
    [.construct false (.replicate _ 0) ⟨1, 2, 3, 4, 5, .info⟩,
      .stream false (fun _ => []) (.string [72, 73]), .moveConstruct true false,
      .stream true (fun _ => []) (.int32 7), .moveAssign false true] = some _ from rfl)
  obtain ⟨l, hl, hused, -, htext⟩ := hheld false ⟨⟨1, 2, 3, 4, 5, .info⟩,
    [.cstring [72, 73], .int32 7], by decide⟩ rfl
  exact ⟨s, hs, l, hl, hused, htext⟩

end LogLine

end ZephyrLog
