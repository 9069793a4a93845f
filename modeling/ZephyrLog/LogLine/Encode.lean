import Mathlib.Data.List.Forall2
import ZephyrLog.LogLine.Model

/-!
# What the encoders write

`contents` is the part of the buffer in use.  In a sound line the buffer has the size that
`m_bufferSize` says and the part in use fits in it.  `Appends l bs l'` says that `l'` is a sound
line with the contents of `l` followed by `bs`, which is all that the later parts need to know about
an operation: `resizeBufferIfNeeded` appends nothing, an encoder appends the bytes of its record
(`stream_appends`), and a whole statement leaves the header followed by the records (`build_spec`).
-/

namespace ZephyrLog

/-! ## The bytes of a header and of a record -/

/-- The 37 bytes that the constructor writes. -/
def Header.encode (h : Header) : List Byte :=
  toBytes 8 h.timestamp ++ toBytes 8 h.threadId ++ toBytes 8 h.file ++ toBytes 8 h.function
    ++ toBytes 4 h.line ++ toBytes 1 h.level.value

@[simp] theorem Header.length_encode (h : Header) : h.encode.length = 37 := by
  simp [Header.encode]

namespace Record

/-- The tag of a record. -/
def type : Record → ArgType
  | char _ => .char
  | int32 _ => .int32
  | uint32 _ => .uint32
  | int64 _ => .int64
  | uint64 _ => .uint64
  | double _ => .double
  | stringLiteral _ => .stringLiteral
  | cstring _ => .cstring

/-- The bytes after the tag. -/
def payload : Record → List Byte
  | char val => toBytes 1 val
  | int32 val => toBytes 4 val
  | uint32 val => toBytes 4 val
  | int64 val => toBytes 8 val
  | uint64 val => toBytes 8 val
  | double val => toBytes 8 val
  | stringLiteral s => toBytes 8 s
  | cstring val => toBytes 8 (BitVec.ofNat 64 val.length) ++ val

/-- The bytes of a record, its tag first. -/
def encode (r : Record) : List Byte := r.type.code :: r.payload

theorem length_encode (r : Record) : r.encode.length = r.payload.length + 1 := rfl

theorem length_cstring (s : List Byte) : (cstring s).encode.length = 1 + 8 + s.length := by
  simp only [length_encode, payload, List.length_append, length_toBytes]
  omega

end Record

/-- The record of an argument that is streamed while the memory is `mem`.  A pointer must be null or
point to a C string. -/
def Argument.record (mem : Memory) : Argument → Option Record
  | .char arg => some (.char arg)
  | .int32 arg => some (.int32 arg)
  | .uint32 arg => some (.uint32 arg)
  | .int64 arg => some (.int64 arg)
  | .uint64 arg => some (.uint64 arg)
  | .double arg => some (.double arg)
  | .string arg => some (.cstring arg)
  | .array _ arg => some (.stringLiteral arg)
  | .pointer _ arg => if arg = 0 then some (.cstring []) else (cString mem arg).map .cstring

namespace LogLine

/-! ## Sound lines -/

/-- The bytes in use. -/
def contents (l : LogLine) : List Byte := l.block.take l.bytesUsed

/-- The buffer has the size that `m_bufferSize` says, and the bytes in use fit in it. -/
structure Sound (l : LogLine) : Prop where
  length_block : l.block.length = l.bufferSize
  used_le : l.bytesUsed ≤ l.bufferSize

theorem Sound.length_contents {l : LogLine} (h : Sound l) : l.contents.length = l.bytesUsed := by
  rw [contents, List.length_take, h.length_block, min_eq_left h.used_le]

/-- `l'` holds what `l` holds and then `bs`. -/
structure Appends (l : LogLine) (bs : List Byte) (l' : LogLine) : Prop where
  sound : Sound l'
  contents_eq : l'.contents = l.contents ++ bs

namespace Appends

variable {l l' l'' : LogLine} {bs cs : List Byte}

theorem refl (h : Sound l) : Appends l [] l := ⟨h, (List.append_nil _).symm⟩

theorem trans (h : Appends l bs l') (h' : Appends l' cs l'') : Appends l (bs ++ cs) l'' where
  sound := h'.sound
  contents_eq := by rw [h'.contents_eq, h.contents_eq, List.append_assoc]

theorem bytesUsed_eq (h : Appends l bs l') (hl : Sound l) :
    l'.bytesUsed = l.bytesUsed + bs.length := by
  rw [← h.sound.length_contents, h.contents_eq, List.length_append, hl.length_contents]

end Appends

/-! ## The buffer operations -/

variable {l : LogLine}

theorem put_block {bs : List Byte} (h : l.bytesUsed + bs.length ≤ l.block.length) :
    ∃ l', l.put bs = some l' ∧ l'.block = splice l.block l.bytesUsed bs ∧
      l'.bytesUsed = l.bytesUsed + bs.length ∧ l'.bufferSize = l.bufferSize := by
  obtain ⟨used, size, heap, stack⟩ := l
  cases heap with
  | none => exact ⟨_, dif_pos h, rfl, rfl, rfl⟩
  | some heap => exact ⟨_, if_pos h, rfl, rfl, rfl⟩

/-- Writing into free space appends, and leaves the rest of the space free. -/
theorem put_appends (h : Sound l) (bs : List Byte) {n : ℕ}
    (hroom : l.bytesUsed + (bs.length + n) ≤ l.bufferSize) :
    ∃ l', l.put bs = some l' ∧ Appends l bs l' ∧ l'.bytesUsed + n ≤ l'.bufferSize := by
  have hfit : l.bytesUsed + bs.length ≤ l.block.length := by
    rw [h.length_block]
    omega
  obtain ⟨l', hput, hblock, hused, hsize⟩ := put_block hfit
  refine ⟨l', hput, ⟨⟨?_, ?_⟩, ?_⟩, ?_⟩
  · rw [hblock, length_splice hfit, hsize, h.length_block]
  · rw [hused, hsize, ← h.length_block]
    exact hfit
  · unfold contents
    rw [hblock, hused, take_splice ((Nat.le_add_right _ _).trans hfit)]
  · rw [hused, hsize]
    omega

/-- Growing keeps the bytes in use. -/
theorem grow_appends (h : Sound l) {size : ℕ} (hsize : l.bytesUsed ≤ size) :
    ∃ l', l.grow size = some l' ∧ Appends l [] l' ∧ l'.bufferSize = size ∧
      l'.bytesUsed = l.bytesUsed := by
  have hload : load l.block 0 l.bytesUsed = some l.contents :=
    load_zero (h.length_block ▸ h.used_le)
  have hlen : l.contents.length ≤ size := h.length_contents ▸ hsize
  have hfit : 0 + l.contents.length ≤ (List.replicate size (0 : Byte)).length := by simpa using hlen
  have htake : (splice (List.replicate size (0 : Byte)) 0 l.contents).take l.bytesUsed
      = l.contents := by
    have : (splice (List.replicate size (0 : Byte)) 0 l.contents).take (0 + l.contents.length)
        = _ := take_splice (Nat.zero_le _)
    rwa [Nat.zero_add, h.length_contents, List.take_zero, List.nil_append] at this
  refine ⟨{ l with
      bufferSize := size
      heapBuffer := some (splice (List.replicate size 0) 0 l.contents) }, ?_, ⟨⟨?_, hsize⟩, ?_⟩,
    rfl, rfl⟩
  · simp [grow, hload, hlen]
  · exact (length_splice hfit).trans (List.length_replicate ..)
  · exact htake.trans (List.append_nil _).symm

/-- Nothing is allocated exactly when the bytes fit. -/
theorem newBufferSize_eq_none_iff {n : ℕ} :
    l.newBufferSize n = none ↔ (l.bytesUsed + n) % 2 ^ 64 ≤ l.bufferSize := by
  unfold newBufferSize
  split_ifs <;> simp_all

/-- A new buffer has room for the bytes to come. -/
theorem required_le_newBufferSize {n size : ℕ} (h : l.newBufferSize n = some size) :
    l.bufferSize < (l.bytesUsed + n) % 2 ^ 64 ∧ (l.bytesUsed + n) % 2 ^ 64 ≤ size := by
  unfold newBufferSize at h
  by_cases hfits : (l.bytesUsed + n) % 2 ^ 64 ≤ l.bufferSize
  · rw [if_pos hfits] at h
    cases h
  rw [if_neg hfits] at h
  refine ⟨Nat.lt_of_not_le hfits, ?_⟩
  split at h
  · exact Option.some.inj h ▸ le_max_right _ _
  · exact Option.some.inj h ▸ le_max_right _ _

theorem resize_appends (h : Sound l) {n : ℕ} (hn : l.bytesUsed + n < 2 ^ 64) :
    ∃ l', l.resizeBufferIfNeeded n = some l' ∧ Appends l [] l' ∧
      l'.bytesUsed + n ≤ l'.bufferSize := by
  have hrequired : (l.bytesUsed + n) % 2 ^ 64 = l.bytesUsed + n := Nat.mod_eq_of_lt hn
  unfold resizeBufferIfNeeded
  cases hnew : l.newBufferSize n with
  | none =>
    rw [newBufferSize_eq_none_iff, hrequired] at hnew
    exact ⟨l, rfl, .refl h, hnew⟩
  | some size =>
    obtain ⟨-, hsize⟩ := required_le_newBufferSize hnew
    rw [hrequired] at hsize
    obtain ⟨l', hgrow, happ, hsize', hused⟩ := grow_appends h (le_of_add_le_left hsize)
    exact ⟨l', hgrow, happ, by rwa [hsize', hused]⟩

/-! ## What the operations are made of -/

section Inversion

variable {l' : LogLine} {bs : List Byte} {n : ℕ}

theorem of_put (hput : l.put bs = some l') :
    l.bytesUsed + bs.length ≤ l.block.length ∧ l'.block = splice l.block l.bytesUsed bs ∧
      l'.bytesUsed = l.bytesUsed + bs.length ∧ l'.bufferSize = l.bufferSize ∧
      l'.isHeapAllocated = l.isHeapAllocated := by
  obtain ⟨used, size, heap, stack⟩ := l
  cases heap with
  | none =>
    obtain ⟨hfit, hput⟩ := Option.dite_none_right_eq_some.1 hput
    cases hput
    exact ⟨hfit, rfl, rfl, rfl, rfl⟩
  | some heap =>
    obtain ⟨hfit, hput⟩ := Option.ite_none_right_eq_some.1 hput
    cases hput
    exact ⟨hfit, rfl, rfl, rfl, rfl⟩

theorem of_grow (hgrow : l.grow n = some l') :
    l'.block.length = n ∧ l'.bufferSize = n ∧ l'.isHeapAllocated = true ∧
      l'.bytesUsed = l.bytesUsed := by
  obtain ⟨bytes, -, hgrow⟩ := Option.bind_eq_some_iff.1 hgrow
  obtain ⟨hfit, hgrow⟩ := Option.ite_none_right_eq_some.1 hgrow
  cases hgrow
  refine ⟨?_, rfl, rfl, rfl⟩
  show (splice (List.replicate n (0 : Byte)) 0 bytes).length = n
  rw [length_splice (by simpa using hfit), List.length_replicate]

/-- Either there is room, or the buffer is replaced: the stack buffer by one of at least 512 bytes,
a heap buffer by one of at least twice its size. -/
theorem of_resize (hresize : l.resizeBufferIfNeeded n = some l') :
    (l.bytesUsed + n) % 2 ^ 64 ≤ l.bufferSize ∧ l' = l ∨
      l.bufferSize < (l.bytesUsed + n) % 2 ^ 64 ∧
        (l.isHeapAllocated = false ∧ l.grow (max 512 ((l.bytesUsed + n) % 2 ^ 64)) = some l' ∨
          l.isHeapAllocated = true ∧
            l.grow (max (2 * l.bufferSize % 2 ^ 64) ((l.bytesUsed + n) % 2 ^ 64)) = some l') := by
  unfold resizeBufferIfNeeded at hresize
  by_cases hfits : (l.bytesUsed + n) % 2 ^ 64 ≤ l.bufferSize
  · rw [newBufferSize_eq_none_iff.2 hfits] at hresize
    exact .inl ⟨hfits, (Option.some.inj hresize).symm⟩
  refine .inr ⟨Nat.lt_of_not_le hfits, ?_⟩
  unfold newBufferSize at hresize
  cases hheap : l.isHeapAllocated with
  | false =>
    rw [if_neg hfits, hheap, if_neg Bool.false_ne_true] at hresize
    exact .inl ⟨rfl, hresize⟩
  | true =>
    rw [if_neg hfits, hheap, if_pos rfl] at hresize
    exact .inr ⟨rfl, hresize⟩

/-- The constructor only writes. -/
theorem construct_induction {P : LogLine → Prop} {garbage : List.Vector Byte stackBufferSize}
    {header : Header} (hconstruct : construct garbage header = some l)
    (empty : P ⟨0, stackBufferSize, none, garbage⟩)
    (put : ∀ l l' bs, P l → l.put bs = some l' → P l') : P l := by
  obtain ⟨l₁, h₁, hconstruct⟩ := Option.bind_eq_some_iff.1 hconstruct
  obtain ⟨l₂, h₂, hconstruct⟩ := Option.bind_eq_some_iff.1 hconstruct
  obtain ⟨l₃, h₃, hconstruct⟩ := Option.bind_eq_some_iff.1 hconstruct
  obtain ⟨l₄, h₄, hconstruct⟩ := Option.bind_eq_some_iff.1 hconstruct
  obtain ⟨l₅, h₅, h₆⟩ := Option.bind_eq_some_iff.1 hconstruct
  have p₃ := put _ _ _ (put _ _ _ (put _ _ _ empty h₁) h₂) h₃
  exact put _ _ _ (put _ _ _ (put _ _ _ p₃ h₄) h₅) h₆

theorem of_encodeScalar {type : ArgType} {arg : BitVec (8 * n)}
    (hencode : l.encodeScalar type n arg = some l') :
    ∃ l₁ l₂, l.resizeBufferIfNeeded (1 + n) = some l₁ ∧ l₁.put [type.code] = some l₂ ∧
      l₂.put (toBytes n arg) = some l' := by
  obtain ⟨l₁, hresize, hencode⟩ := Option.bind_eq_some_iff.1 hencode
  obtain ⟨l₂, htag, harg⟩ := Option.bind_eq_some_iff.1 hencode
  exact ⟨l₁, l₂, hresize, htag, harg⟩

theorem of_encodeCString {s : List Byte} (hencode : l.encodeCString s = some l') :
    ∃ l₁ l₂ l₃, l.resizeBufferIfNeeded ((1 + 8 + s.length) % 2 ^ 64) = some l₁ ∧
      l₁.put [ArgType.cstring.code] = some l₂ ∧
      l₂.put (toBytes 8 (BitVec.ofNat 64 s.length)) = some l₃ ∧
      (l₃.put s = some l' ∨ s = [] ∧ l₃ = l') := by
  obtain ⟨l₁, hresize, hencode⟩ := Option.bind_eq_some_iff.1 hencode
  obtain ⟨l₂, htag, hencode⟩ := Option.bind_eq_some_iff.1 hencode
  obtain ⟨l₃, hsize, hencode⟩ := Option.bind_eq_some_iff.1 hencode
  refine ⟨l₁, l₂, l₃, hresize, htag, hsize, ?_⟩
  by_cases hpos : 0 < s.length
  · exact .inl ((if_pos hpos).symm.trans hencode)
  · refine .inr ⟨List.eq_nil_of_length_eq_zero (Nat.eq_zero_of_not_pos hpos), ?_⟩
    exact Option.some.inj ((if_neg hpos).symm.trans hencode)

/-- `operator<<` encodes a value of fixed size, or characters, or it cannot read its argument. -/
theorem stream_cases (l : LogLine) (mem : Memory) (arg : Argument) :
    (∃ r type size val, arg.record mem = some r ∧ r.encode = type.code :: toBytes size val ∧
        l.stream mem arg = l.encodeScalar type size val) ∨
      (∃ s, arg.record mem = some (.cstring s) ∧ l.stream mem arg = l.encodeCString s) ∨
      arg.record mem = none ∧ l.stream mem arg = none := by
  cases arg with
  | string s => exact .inr (.inl ⟨s, rfl, rfl⟩)
  | pointer isConst s =>
    by_cases hnull : s = 0
    · exact .inr (.inl ⟨[], if_pos hnull, if_pos hnull⟩)
    · have hrecord : (Argument.pointer isConst s).record mem = (cString mem s).map .cstring :=
        if_neg hnull
      have hstream : l.stream mem (.pointer isConst s) = cString mem s >>= l.encodeCString :=
        if_neg hnull
      cases htext : cString mem s with
      | none => exact .inr (.inr ⟨by rw [hrecord, htext]; rfl, by rw [hstream, htext]; rfl⟩)
      | some text =>
        exact .inr (.inl ⟨text, by rw [hrecord, htext]; rfl, by rw [hstream, htext]; rfl⟩)
  | _ => exact .inl ⟨_, _, _, _, rfl, rfl, rfl⟩

/-- An encoder asks for as many bytes as its record has. -/
theorem additionalBytes_eq (mem : Memory) (arg : Argument) :
    additionalBytes mem arg = (arg.record mem).map fun r => r.encode.length % 2 ^ 64 := by
  cases arg with
  | string s => exact congrArg (fun n => some (n % 2 ^ 64)) (Record.length_cstring s).symm
  | pointer isConst s =>
    by_cases hnull : s = 0
    · rw [additionalBytes, Argument.record, if_pos hnull, if_pos hnull]
      rfl
    · rw [additionalBytes, Argument.record, if_neg hnull, if_neg hnull, Option.map_map]
      exact congrArg (Option.map · _) (funext fun text => by
        rw [Function.comp_apply, Record.length_cstring])
  | _ => rfl

theorem length_block_of_put (hput : l.put bs = some l') :
    l'.block.length = l.block.length ∧ l'.bytesUsed = l.bytesUsed + bs.length ∧
      l'.bytesUsed ≤ l'.block.length := by
  obtain ⟨hfit, hblock, hused, -, -⟩ := of_put hput
  have hlen : l'.block.length = l.block.length := by rw [hblock, length_splice hfit]
  exact ⟨hlen, hused, by rwa [hused, hlen]⟩

/-- A call that allocates nothing writes into the buffer that is there. -/
theorem le_length_block_of_stream {mem : Memory} {arg : Argument} {r : Record}
    (hr : arg.record mem = some r) (hfits : (l.bytesUsed + r.encode.length) % 2 ^ 64 ≤ l.bufferSize)
    (hstream : l.stream mem arg = some l') :
    l.bytesUsed + r.encode.length ≤ l.block.length := by
  have same {n : ℕ} {l₁ : LogLine} (hn : (l.bytesUsed + n) % 2 ^ 64 ≤ l.bufferSize)
      (hresize : l.resizeBufferIfNeeded n = some l₁) : l₁ = l :=
    (of_resize hresize).elim And.right fun h => absurd hn (Nat.not_le_of_lt h.1)
  rcases stream_cases l mem arg with ⟨r', type, size, val, hr', hencode, heq⟩ | ⟨s, hr', heq⟩ |
    ⟨hr', -⟩
  · obtain rfl : r' = r := Option.some.inj (hr'.symm.trans hr)
    rw [hencode, List.length_cons, length_toBytes, add_comm size] at hfits ⊢
    obtain ⟨l₁, l₂, hresize, htag, harg⟩ := of_encodeScalar (heq.symm.trans hstream)
    obtain rfl := same hfits hresize
    obtain ⟨hlen₂, hused₂, -⟩ := length_block_of_put htag
    obtain ⟨hlen, hused, hle⟩ := length_block_of_put harg
    rw [length_toBytes] at hused
    rw [List.length_singleton] at hused₂
    omega
  · obtain rfl : .cstring s = r := Option.some.inj (hr'.symm.trans hr)
    rw [Record.length_cstring] at hfits ⊢
    obtain ⟨l₁, l₂, l₃, hresize, htag, hsize, hchars⟩ := of_encodeCString (heq.symm.trans hstream)
    obtain rfl := same (by rwa [Nat.add_mod_mod]) hresize
    obtain ⟨hlen₂, hused₂, -⟩ := length_block_of_put htag
    obtain ⟨hlen₃, hused₃, hle₃⟩ := length_block_of_put hsize
    rw [length_toBytes] at hused₃
    rw [List.length_singleton] at hused₂
    rcases hchars with hchars | ⟨rfl, rfl⟩
    · obtain ⟨hlen, hused, hle⟩ := length_block_of_put hchars
      omega
    · rw [List.length_nil]
      omega
  · cases hr'.symm.trans hr

end Inversion

/-! ## The encoders -/

/-- The tag and the value of a record, written after room was made for them. -/
theorem encodeScalar_appends (h : Sound l) (type : ArgType) (size : ℕ) (arg : BitVec (8 * size))
    (hlt : l.bytesUsed + (1 + size) < 2 ^ 64) :
    ∃ l', l.encodeScalar type size arg = some l' ∧
      Appends l (type.code :: toBytes size arg) l' := by
  obtain ⟨l₁, hresize, h₁, hroom⟩ := resize_appends h hlt
  obtain ⟨l₂, htag, h₂, hroom⟩ := put_appends h₁.sound [type.code] hroom
  obtain ⟨l₃, harg, h₃, -⟩ := put_appends (n := 0) h₂.sound (toBytes size arg)
    (by simpa using hroom)
  refine ⟨l₃, ?_, (h₁.trans h₂).trans h₃⟩
  simp [encodeScalar, hresize, htag, harg]

theorem encodeCString_appends (h : Sound l) (s : List Byte)
    (hlt : l.bytesUsed + (1 + 8 + s.length) < 2 ^ 64) :
    ∃ l', l.encodeCString s = some l' ∧ Appends l (Record.cstring s).encode l' := by
  have hlen : (1 + 8 + s.length) % 2 ^ 64 = 1 + 8 + s.length :=
    Nat.mod_eq_of_lt (lt_of_le_of_lt (Nat.le_add_left _ _) hlt)
  obtain ⟨l₁, hresize, h₁, hroom⟩ := resize_appends h hlt
  rw [add_assoc 1] at hroom
  obtain ⟨l₂, htag, h₂, hroom⟩ := put_appends h₁.sound [ArgType.cstring.code] hroom
  obtain ⟨l₃, hsize, h₃, hroom⟩ := put_appends (n := s.length) h₂.sound
    (toBytes 8 (BitVec.ofNat 64 s.length)) (by simpa using hroom)
  have happ := (h₁.trans h₂).trans h₃
  simp only [encodeCString, hlen, hresize, htag, hsize, bind, Option.bind]
  by_cases hpos : 0 < s.length
  · obtain ⟨l₄, hchars, h₄, -⟩ := put_appends (n := 0) h₃.sound s hroom
    rw [if_pos hpos]
    exact ⟨l₄, hchars, by simpa [Record.encode, Record.payload, Record.type] using happ.trans h₄⟩
  · obtain rfl : s = [] := List.eq_nil_of_length_eq_zero (Nat.eq_zero_of_not_pos hpos)
    rw [if_neg hpos]
    exact ⟨l₃, rfl, by simpa [Record.encode, Record.payload, Record.type] using happ⟩

/-- `operator<<` appends the record of its argument. -/
theorem stream_appends (h : Sound l) {mem : Memory} {arg : Argument} {r : Record}
    (hr : arg.record mem = some r) (hlt : l.bytesUsed + r.encode.length < 2 ^ 64) :
    ∃ l', l.stream mem arg = some l' ∧ Appends l r.encode l' := by
  rcases stream_cases l mem arg with ⟨r', type, size, val, hr', hencode, hstream⟩ |
    ⟨s, hr', hstream⟩ | ⟨hr', -⟩
  · obtain rfl : r' = r := Option.some.inj (hr'.symm.trans hr)
    rw [hencode, List.length_cons, length_toBytes, add_comm size] at hlt
    rw [hstream, hencode]
    exact encodeScalar_appends h type size val hlt
  · obtain rfl : .cstring s = r := Option.some.inj (hr'.symm.trans hr)
    rw [Record.length_cstring] at hlt
    rw [hstream]
    exact encodeCString_appends h s hlt
  · cases hr'.symm.trans hr

/-- `calls` streamed one after the other append their records. -/
theorem streamAll_appends {calls : List (Memory × Argument)} {records : List Record}
    (hrecords : List.Forall₂ (fun call r => call.2.record call.1 = some r) calls records)
    (h : Sound l) (hlt : l.bytesUsed + (records.flatMap Record.encode).length < 2 ^ 64) :
    ∃ l', calls.foldlM (fun l call => l.stream call.1 call.2) l = some l' ∧
      Appends l (records.flatMap Record.encode) l' := by
  induction hrecords generalizing l with
  | nil => exact ⟨l, rfl, .refl h⟩
  | cons hr _ ih =>
    rw [List.flatMap_cons, List.length_append, ← add_assoc] at hlt
    obtain ⟨l₁, hstream, h₁⟩ := stream_appends h hr (lt_of_le_of_lt (Nat.le_add_right _ _) hlt)
    obtain ⟨l₂, hrest, h₂⟩ := ih h₁.sound (by rwa [h₁.bytesUsed_eq h])
    refine ⟨l₂, ?_, by simpa using h₁.trans h₂⟩
    rw [List.foldlM_cons, hstream]
    exact hrest

/-! ## Whole statements -/

/-- The line before the constructor writes to it. -/
theorem sound_empty (garbage : List.Vector Byte stackBufferSize) :
    Sound ⟨0, stackBufferSize, none, garbage⟩ :=
  ⟨garbage.2, Nat.zero_le _⟩

theorem construct_spec (garbage : List.Vector Byte stackBufferSize) (header : Header) :
    ∃ l, construct garbage header = some l ∧ Sound l ∧ l.contents = header.encode := by
  have h₀ := sound_empty garbage
  obtain ⟨l₁, hput₁, h₁, hroom⟩ := put_appends (n := 29) h₀ (toBytes 8 header.timestamp)
    (by simp [stackBufferSize])
  obtain ⟨l₂, hput₂, h₂, hroom⟩ := put_appends (n := 21) h₁.sound (toBytes 8 header.threadId) hroom
  obtain ⟨l₃, hput₃, h₃, hroom⟩ := put_appends (n := 13) h₂.sound (toBytes 8 header.file) hroom
  obtain ⟨l₄, hput₄, h₄, hroom⟩ := put_appends (n := 5) h₃.sound (toBytes 8 header.function) hroom
  obtain ⟨l₅, hput₅, h₅, hroom⟩ := put_appends (n := 1) h₄.sound (toBytes 4 header.line) hroom
  obtain ⟨l₆, hput₆, h₆, -⟩ := put_appends (n := 0) h₅.sound (toBytes 1 header.level.value) hroom
  have happ := (((((h₁.trans h₂).trans h₃).trans h₄).trans h₅).trans h₆).contents_eq
  refine ⟨l₆, ?_, h₆.sound, happ⟩
  simp only [construct, hput₁, hput₂, hput₃, hput₄, hput₅, hput₆, bind, Option.bind]

/-- A statement leaves a sound line that holds the header and the records of its arguments. -/
theorem build_spec (garbage : List.Vector Byte stackBufferSize) (header : Header)
    {calls : List (Memory × Argument)} {records : List Record}
    (hrecords : List.Forall₂ (fun call r => call.2.record call.1 = some r) calls records)
    (hlt : 37 + (records.flatMap Record.encode).length < 2 ^ 64) :
    ∃ l, build garbage header calls = some l ∧ Sound l ∧
      l.contents = header.encode ++ records.flatMap Record.encode := by
  obtain ⟨l₀, hconstruct, h₀, hheader⟩ := construct_spec garbage header
  have hused : l₀.bytesUsed = 37 := by rw [← h₀.length_contents, hheader, Header.length_encode]
  obtain ⟨l, hstream, h⟩ := streamAll_appends hrecords h₀ (by rwa [hused])
  refine ⟨l, ?_, h.sound, by rw [h.contents_eq, hheader]⟩
  rw [build, hconstruct]
  exact hstream

end LogLine

end ZephyrLog
