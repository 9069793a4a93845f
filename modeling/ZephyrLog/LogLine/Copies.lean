import ZephyrLog.LogLine.Growth

/-!
# What growing costs

`resizeBufferIfNeeded` copies the bytes in use whenever it replaces the buffer, and the new buffer
has at least twice the size of the old one, also the first one on the heap: 512 bytes after 224.  So
all growths of a line together copy fewer bytes than twice what the line holds in the end, and their
number is logarithmic in it.
-/

namespace ZephyrLog

/-- A buffer of `base` bytes was replaced `replaced` times by one of at least twice its size, and
`copied` bytes were copied then. -/
structure Doubled (base size copied replaced : ℕ) : Prop where
  copied_le : copied + base ≤ size
  pow_le : base * 2 ^ replaced ≤ size

namespace Doubled

variable {base size size' copied replaced used : ℕ}

theorem init (base : ℕ) : Doubled base base 0 0 :=
  ⟨(Nat.zero_add base).le, by simp⟩

theorem replace (h : Doubled base size copied replaced) (hused : used ≤ size)
    (hsize : 2 * size ≤ size') : Doubled base size' (copied + used) (replaced + 1) where
  copied_le := by
    have hcopied := h.copied_le
    omega
  pow_le := by
    have hpow := h.pow_le
    rw [pow_succ, ← Nat.mul_assoc]
    omega

end Doubled

namespace LogLine

variable {l l' : LogLine} {n : ℕ}

/-- A line, with the bytes that growing it has copied and the number of buffers that it has
replaced. -/
structure Counted where
  line : LogLine
  copied : ℕ
  replaced : ℕ

/-- `operator<<`.  It copies the bytes in use if it replaces the buffer, which is when
`m_bufferSize` changes. -/
def Counted.stream (c : Counted) (call : Memory × Argument) : Option Counted :=
  (c.line.stream call.1 call.2).map fun l =>
    if l.bufferSize = c.line.bufferSize then ⟨l, c.copied, c.replaced⟩
    else ⟨l, c.copied + c.line.bytesUsed, c.replaced + 1⟩

/-- `build`, with what growing costs. -/
def Counted.build (garbage : List.Vector Byte stackBufferSize) (header : Header)
    (calls : List (Memory × Argument)) : Option Counted := do
  let l ← construct garbage header
  calls.foldlM Counted.stream ⟨l, 0, 0⟩

/-- The buffer stays, or is replaced by one of at least twice its size. -/
def Widened (l l' : LogLine) : Prop :=
  l'.bufferSize = l.bufferSize ∨ 2 * l.bufferSize ≤ l'.bufferSize

namespace Widened

theorem put {m : LogLine} {bs : List Byte} (h : Widened l m) (hput : m.put bs = some l') :
    Widened l l' := by
  obtain ⟨-, -, -, hsize, -⟩ := of_put hput
  unfold Widened
  rwa [hsize]

theorem resize (h : Grown l) (hlt : l.bytesUsed + n < 2 ^ 63)
    (hresize : l.resizeBufferIfNeeded n = some l') : Widened l l' := by
  have hrequired : (l.bytesUsed + n) % 2 ^ 64 = l.bytesUsed + n := Nat.mod_eq_of_lt (by omega)
  have hresize := of_resize hresize
  rw [hrequired] at hresize
  rcases hresize with ⟨-, rfl⟩ | ⟨hfull, ⟨hheap, hgrow⟩ | ⟨hheap, hgrow⟩⟩
  · exact .inl rfl
  · obtain ⟨-, hsize, -⟩ := of_grow hgrow
    have hstack : l.bufferSize = 224 := h.capacity.stack hheap
    exact .inr (by omega)
  · obtain ⟨-, hsize, -⟩ := of_grow hgrow
    have hdouble : 2 * l.bufferSize % 2 ^ 64 = 2 * l.bufferSize := Nat.mod_eq_of_lt (by omega)
    rw [hdouble] at hsize
    exact .inr (by omega)

/-- `operator<<` at most widens the buffer. -/
theorem stream (h : Grown l) {mem : Memory} {arg : Argument} {r : Record}
    (hr : arg.record mem = some r) (hlt : l.bytesUsed + r.encode.length < 2 ^ 63)
    (hstream : l.stream mem arg = some l') : Widened l l' := by
  rcases stream_cases l mem arg with ⟨r', type, size, val, hr', hencode, heq⟩ | ⟨s, hr', heq⟩ |
    ⟨hr', -⟩
  · obtain rfl : r' = r := Option.some.inj (hr'.symm.trans hr)
    rw [hencode, List.length_cons, length_toBytes, add_comm size] at hlt
    obtain ⟨l₁, l₂, hresize, htag, harg⟩ := of_encodeScalar (heq.symm.trans hstream)
    exact ((resize h hlt hresize).put htag).put harg
  · obtain rfl : .cstring s = r := Option.some.inj (hr'.symm.trans hr)
    rw [Record.length_cstring] at hlt
    obtain ⟨l₁, l₂, l₃, hresize, htag, hsize, hchars⟩ := of_encodeCString (heq.symm.trans hstream)
    rw [Nat.mod_eq_of_lt (by omega)] at hresize
    have h₃ := ((resize h hlt hresize).put htag).put hsize
    rcases hchars with hchars | ⟨-, rfl⟩
    · exact h₃.put hchars
    · exact h₃
  · cases hr'.symm.trans hr

end Widened

/-- The growths so far have doubled the buffer. -/
def Counted.Amortized (c : Counted) : Prop :=
  Grown c.line ∧ Doubled stackBufferSize c.line.bufferSize c.copied c.replaced

theorem Counted.Amortized.stream {c : Counted} (h : c.Amortized) {call : Memory × Argument}
    {r : Record} (hr : call.2.record call.1 = some r)
    (hlt : c.line.bytesUsed + r.encode.length < 2 ^ 63) :
    ∃ c', c.stream call = some c' ∧ c.line.stream call.1 call.2 = some c'.line ∧ c'.Amortized ∧
      c'.line.bytesUsed = c.line.bytesUsed + r.encode.length := by
  obtain ⟨hgrown, hdoubled⟩ := h
  obtain ⟨l, hl, hgrown', happ⟩ := hgrown.stream hr hlt
  have hused := happ.bytesUsed_eq hgrown.toSound
  by_cases hsize : l.bufferSize = c.line.bufferSize
  · refine ⟨⟨l, c.copied, c.replaced⟩, ?_, hl, ⟨hgrown', ?_⟩, hused⟩
    · rw [Counted.stream, hl, Option.map_some, if_pos hsize]
    · rwa [hsize]
  · have hwide := (Widened.stream hgrown hr hlt hl).resolve_left hsize
    refine ⟨⟨l, c.copied + c.line.bytesUsed, c.replaced + 1⟩, ?_, hl, ⟨hgrown', ?_⟩, hused⟩
    · rw [Counted.stream, hl, Option.map_some, if_neg hsize]
    · exact hdoubled.replace hgrown.used_le hwide

theorem Counted.Amortized.streamAll {calls : List (Memory × Argument)} {records : List Record}
    (hrecords : List.Forall₂ (fun call r => call.2.record call.1 = some r) calls records)
    {c : Counted} (h : c.Amortized)
    (hlt : c.line.bytesUsed + (records.map fun r => r.encode.length).sum < 2 ^ 63) :
    ∃ c', calls.foldlM Counted.stream c = some c' ∧
      calls.foldlM (fun l call => l.stream call.1 call.2) c.line = some c'.line ∧
      c'.Amortized ∧ c.line.bytesUsed ≤ c'.line.bytesUsed := by
  induction hrecords generalizing c with
  | nil => exact ⟨c, rfl, rfl, h, le_rfl⟩
  | cons hr _ ih =>
    rw [List.map_cons, List.sum_cons, ← add_assoc] at hlt
    obtain ⟨c₁, hstream, hline, h₁, hused⟩ :=
      h.stream hr (lt_of_le_of_lt (Nat.le_add_right _ _) hlt)
    obtain ⟨c₂, hrest, hlines, h₂, hle⟩ := ih h₁ (by rwa [hused])
    refine ⟨c₂, ?_, ?_, h₂, by omega⟩
    · rw [List.foldlM_cons, hstream]
      exact hrest
    · rw [List.foldlM_cons, hline]
      exact hlines

/-- Growing is cheap: after any sequence of `operator<<` on a new line, all growths together have
copied fewer bytes than twice what the line holds, and with `k` of them `224 * 2 ^ k` bytes are at
most 512 or twice what it holds. -/
theorem copies_amortized (garbage : List.Vector Byte stackBufferSize) (header : Header)
    {calls : List (Memory × Argument)} {records : List Record}
    (hrecords : List.Forall₂ (fun call r => call.2.record call.1 = some r) calls records)
    (hlt : 37 + (records.map fun r => r.encode.length).sum < 2 ^ 63) :
    ∃ c, Counted.build garbage header calls = some c ∧
      build garbage header calls = some c.line ∧
      c.copied < 2 * c.line.bytesUsed ∧
      224 * 2 ^ c.replaced ≤ max 512 (2 * c.line.bytesUsed) := by
  obtain ⟨l, hconstruct, h, hheader⟩ := Grown.construct garbage header
  have hstack : l.bufferSize = stackBufferSize := by
    apply h.capacity.stack
    rw [← Bool.not_eq_true, h.isHeapAllocated_iff, hheader]
    decide
  have hinit : Counted.Amortized ⟨l, 0, 0⟩ :=
    ⟨h, hstack.symm ▸ Doubled.init stackBufferSize⟩
  obtain ⟨c, hc, hline, ⟨hgrown, hdoubled⟩, hle⟩ := hinit.streamAll hrecords (by rwa [hheader])
  refine ⟨c, ?_, ?_, ?_⟩
  · rw [Counted.build, hconstruct]
    exact hc
  · rw [build, hconstruct]
    exact hline
  · have hused : 37 ≤ c.line.bytesUsed := hheader ▸ hle
    have hcopied : c.copied + 224 ≤ c.line.bufferSize := hdoubled.copied_le
    have hpow : 224 * 2 ^ c.replaced ≤ c.line.bufferSize := hdoubled.pow_le
    cases hheap : c.line.isHeapAllocated with
    | false =>
      have hsize : c.line.bufferSize = 224 := hgrown.capacity.stack hheap
      omega
    | true =>
      obtain ⟨hlarge, -, hsize⟩ := hgrown.capacity.heap hheap
      have hlarge' : 224 < c.line.bytesUsed := hlarge
      omega

/-- Two strings of 300 characters. -/
theorem copies_amortized_strings : ∃ c,
    Counted.build (.replicate _ 0) ⟨0, 0, 0, 0, 0, .info⟩
        (.replicate 2 (fun _ => [], .string (.replicate 300 65))) = some c ∧
      build (.replicate _ 0) ⟨0, 0, 0, 0, 0, .info⟩
        (.replicate 2 (fun _ => [], .string (.replicate 300 65))) = some c.line ∧
      c.copied < 2 * c.line.bytesUsed ∧
      224 * 2 ^ c.replaced ≤ max 512 (2 * c.line.bytesUsed) := by
  have hrecords : List.Forall₂ (fun (call : Memory × Argument) r => call.2.record call.1 = some r)
      (.replicate 2 (fun _ => [], .string (.replicate 300 65)))
      (.replicate 2 (.cstring (.replicate 300 65))) :=
    .cons rfl (.cons rfl .nil)
  refine copies_amortized _ _ hrecords ?_
  rw [List.map_replicate, List.sum_replicate, Record.length_cstring, List.length_replicate]
  decide

end LogLine

end ZephyrLog
