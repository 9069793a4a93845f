import Mathlib.Algebra.Order.BigOperators.Group.List
import ZephyrLog.Lib.Transition
import ZephyrLog.LogLine.Encode

/-!
# How the buffer of a line grows

A line keeps the stack buffer as long as its bytes fit in it.  After that it has a heap buffer of
512 bytes, or a larger one of at most twice what is in use.  `Capacity l used` says that the buffer
of `l` is as a line with `used` bytes should have it: `resizeBufferIfNeeded` gives a line the buffer
for the bytes to come, and writing them changes no buffer size.

When the allocation throws the line keeps its buffer and has a new `m_bufferSize`, so a line grows
as it should exactly as long as no allocation throws (`growth_policy_iff`).
-/

namespace ZephyrLog

namespace LogLine

/-- The buffer of `l` is as it should be for `used` bytes. -/
structure Capacity (l : LogLine) (used : ℕ) : Prop where
  used_le : used ≤ l.bufferSize
  stack : l.isHeapAllocated = false → l.bufferSize = stackBufferSize
  heap : l.isHeapAllocated = true →
    stackBufferSize < used ∧ 512 ≤ l.bufferSize ∧ l.bufferSize ≤ max 512 (2 * used)

namespace Capacity

variable {l l' : LogLine} {n used : ℕ} {bs : List Byte}

theorem put (h : Capacity l used) (hput : l.put bs = some l') : Capacity l' used := by
  obtain ⟨-, -, -, hsize, hheap⟩ := of_put hput
  constructor
  · rw [hsize]
    exact h.used_le
  · rw [hsize, hheap]
    exact h.stack
  · rw [hsize, hheap]
    exact h.heap

/-- A new heap buffer that is large enough and not too large. -/
theorem grow (hgrow : l.grow n = some l') (hstack : stackBufferSize < used) (hused : used ≤ n)
    (hmin : 512 ≤ n) (hmax : n ≤ max 512 (2 * used)) : Capacity l' used := by
  obtain ⟨-, rfl, hheap, -⟩ := of_grow hgrow
  refine ⟨hused, fun hnone => ?_, fun _ => ⟨hstack, hmin, hmax⟩⟩
  exact absurd (hheap.symm.trans hnone) (by decide)

/-- `resizeBufferIfNeeded` makes the buffer what it should be with `n` bytes more.  Below `2 ^ 63`
neither `required` nor the doubled size wraps. -/
theorem resize (h : Capacity l l.bytesUsed) (hlt : l.bytesUsed + n < 2 ^ 63)
    (hresize : l.resizeBufferIfNeeded n = some l') : Capacity l' (l.bytesUsed + n) := by
  have hrequired : (l.bytesUsed + n) % 2 ^ 64 = l.bytesUsed + n := Nat.mod_eq_of_lt (by omega)
  have hresize := of_resize hresize
  rw [hrequired] at hresize
  rcases hresize with ⟨hfits, rfl⟩ | ⟨hfull, ⟨hheap, hgrow⟩ | ⟨hheap, hgrow⟩⟩
  · refine ⟨hfits, h.stack, fun hheap => ?_⟩
    obtain ⟨hstack, hmin, hmax⟩ := h.heap hheap
    exact ⟨by omega, hmin, by omega⟩
  · have hsize := h.stack hheap
    exact grow hgrow (by omega) (by omega) (by omega) (by omega)
  · obtain ⟨hstack, hmin, -⟩ := h.heap hheap
    have hdouble : 2 * l.bufferSize % 2 ^ 64 = 2 * l.bufferSize := Nat.mod_eq_of_lt (by omega)
    rw [hdouble] at hgrow
    exact grow hgrow (by omega) (by omega) (by omega) (by omega)

theorem encodeScalar (h : Capacity l l.bytesUsed) {type : ArgType} {arg : BitVec (8 * n)}
    (hlt : l.bytesUsed + (1 + n) < 2 ^ 63) (hencode : l.encodeScalar type n arg = some l') :
    Capacity l' (l.bytesUsed + (1 + n)) := by
  obtain ⟨l₁, l₂, hresize, htag, harg⟩ := of_encodeScalar hencode
  exact ((h.resize hlt hresize).put htag).put harg

theorem encodeCString (h : Capacity l l.bytesUsed) {s : List Byte}
    (hlt : l.bytesUsed + (1 + 8 + s.length) < 2 ^ 63) (hencode : l.encodeCString s = some l') :
    Capacity l' (l.bytesUsed + (1 + 8 + s.length)) := by
  obtain ⟨l₁, l₂, l₃, hresize, htag, hsize, hchars⟩ := of_encodeCString hencode
  rw [Nat.mod_eq_of_lt (by omega)] at hresize
  have h₃ := ((h.resize hlt hresize).put htag).put hsize
  rcases hchars with hchars | ⟨-, rfl⟩
  · exact h₃.put hchars
  · exact h₃

/-- `operator<<` leaves the buffer as it should be with the record of its argument. -/
theorem stream (h : Capacity l l.bytesUsed) {mem : Memory} {arg : Argument} {r : Record}
    (hr : arg.record mem = some r) (hlt : l.bytesUsed + r.encode.length < 2 ^ 63)
    (hstream : l.stream mem arg = some l') : Capacity l' (l.bytesUsed + r.encode.length) := by
  rcases stream_cases l mem arg with ⟨r', type, size, val, hr', hencode, heq⟩ | ⟨s, hr', heq⟩ |
    ⟨hr', -⟩
  · obtain rfl : r' = r := Option.some.inj (hr'.symm.trans hr)
    rw [hencode, List.length_cons, length_toBytes, add_comm size] at hlt ⊢
    exact h.encodeScalar hlt (heq.symm.trans hstream)
  · obtain rfl : .cstring s = r := Option.some.inj (hr'.symm.trans hr)
    rw [Record.length_cstring] at hlt ⊢
    exact h.encodeCString hlt (heq.symm.trans hstream)
  · cases hr'.symm.trans hr

end Capacity

/-! ## Whole statements -/

/-- A sound line with the buffer that it should have. -/
structure Grown (l : LogLine) : Prop extends Sound l where
  capacity : Capacity l l.bytesUsed

namespace Grown

variable {l : LogLine}

theorem construct (garbage : List.Vector Byte stackBufferSize) (header : Header) :
    ∃ l, construct garbage header = some l ∧ Grown l ∧ l.bytesUsed = 37 := by
  obtain ⟨l, hl, hsound, hcontents⟩ := construct_spec garbage header
  have hused : l.bytesUsed = 37 := by
    rw [← hsound.length_contents, hcontents, Header.length_encode]
  have hempty : Capacity ⟨0, stackBufferSize, none, garbage⟩ 37 :=
    ⟨show 37 ≤ stackBufferSize by decide, fun _ => rfl, fun hheap => nomatch hheap⟩
  have hcapacity : Capacity l 37 :=
    construct_induction (P := (Capacity · 37)) hl hempty fun _ _ _ h hput => h.put hput
  exact ⟨l, hl, ⟨hsound, hused.symm ▸ hcapacity⟩, hused⟩

theorem stream (h : Grown l) {mem : Memory} {arg : Argument} {r : Record}
    (hr : arg.record mem = some r) (hlt : l.bytesUsed + r.encode.length < 2 ^ 63) :
    ∃ l', l.stream mem arg = some l' ∧ Grown l' ∧ Appends l r.encode l' := by
  obtain ⟨l', hl', happ⟩ := stream_appends h.toSound hr (by omega)
  have hcapacity := h.capacity.stream hr hlt hl'
  rw [← happ.bytesUsed_eq h.toSound] at hcapacity
  exact ⟨l', hl', ⟨happ.sound, hcapacity⟩, happ⟩

/-- When a line is on the heap. -/
theorem isHeapAllocated_iff (h : Grown l) :
    l.isHeapAllocated = true ↔ stackBufferSize < l.bytesUsed := by
  constructor
  · exact fun hheap => (h.capacity.heap hheap).1
  · intro hused
    cases hheap : l.isHeapAllocated with
    | true => rfl
    | false =>
      have hsize := h.capacity.stack hheap
      have hle := h.used_le
      omega

end Grown

/-- A call of `operator<<`. -/
structure Call where
  /-- The memory of its moment. -/
  memory : Memory
  argument : Argument
  /-- `std::make_unique` throws in it. -/
  throws : Bool

/-- The record of the argument. -/
def Call.record (c : Call) : Option Record := c.argument.record c.memory

/-- A call on a line; the program catches what is thrown. -/
def call (l : LogLine) (c : Call) : Option LogLine :=
  if c.throws then l.streamBadAlloc c.memory c.argument else l.stream c.memory c.argument

/-- Calls of `operator<<` on the line `l`. -/
def calls (l : LogLine) : Machine LogLine Call where
  init := l
  step := call

/-- The size of the records of some calls. -/
def recordSize (cs : List Call) : ℕ := ((cs.filterMap Call.record).map fun r => r.encode.length).sum

/-- What a line with a header and the records of the calls `cs` has in its buffer. -/
structure Policy (cs : List Call) (l : LogLine) : Prop where
  used_eq : l.bytesUsed = 37 + recordSize (cs.filter fun c => !c.throws)
  heap_iff : l.isHeapAllocated = true ↔ 224 < l.bytesUsed
  used_le : l.bytesUsed ≤ l.bufferSize
  stack : l.isHeapAllocated = false → l.bufferSize = 224
  heap : l.isHeapAllocated = true →
    512 ≤ l.bufferSize ∧ l.bufferSize ≤ max 512 (2 * l.bytesUsed)
  /-- A growth leaves the bytes in use as they are. -/
  growth : ∀ n, l.bytesUsed + n < 2 ^ 63 → ∃ l', l.resizeBufferIfNeeded n = some l' ∧
    l'.bytesUsed = l.bytesUsed ∧ l'.contents = l.contents
  /-- A further call writes behind the bytes in use. -/
  writes : ∀ mem arg r, Argument.record mem arg = some r → l.bytesUsed + r.encode.length < 2 ^ 63 →
    ∃ l', l.stream mem arg = some l' ∧ l'.contents = l.contents ++ r.encode

section Policy

variable {l l' : LogLine} {c : Call} {cs : List Call}

theorem recordSize_append (cs cs' : List Call) :
    recordSize (cs ++ cs') = recordSize cs + recordSize cs' := by
  simp [recordSize]

theorem recordSize_singleton {r : Record} (h : c.record = some r) :
    recordSize [c] = r.encode.length := by
  simp [recordSize, h]

theorem recordSize_filter_le (p : Call → Bool) (cs : List Call) :
    recordSize (cs.filter p) ≤ recordSize cs := by
  have hsub : ((cs.filter p).filterMap Call.record).Sublist (cs.filterMap Call.record) :=
    List.filter_sublist.filterMap _
  exact (hsub.map _).sum_le_sum fun _ _ => Nat.zero_le _

/-- The calls before `c` and `c` itself stay below the bound for all calls. -/
theorem used_lt {all : List Call} {n : ℕ} (hlt : 37 + recordSize all < n)
    (hpre : cs ++ [c] <+: all) {r : Record} (hr : c.record = some r)
    (hused : l.bytesUsed = 37 + recordSize (cs.filter fun c => !c.throws)) :
    l.bytesUsed + r.encode.length < n := by
  obtain ⟨rest, rfl⟩ := hpre
  have hle := recordSize_filter_le (fun c => !c.throws) cs
  rw [recordSize_append, recordSize_append, recordSize_singleton hr] at hlt
  omega

theorem Grown.policy (h : Grown l)
    (hused : l.bytesUsed = 37 + recordSize (cs.filter fun c => !c.throws)) : Policy cs l where
  used_eq := hused
  heap_iff := h.isHeapAllocated_iff
  used_le := h.used_le
  stack := h.capacity.stack
  heap := fun hheap => (h.capacity.heap hheap).2
  growth := by
    intro n hn
    obtain ⟨l', hl', happ, -⟩ := resize_appends h.toSound (n := n) (by omega)
    exact ⟨l', hl', happ.bytesUsed_eq h.toSound, happ.contents_eq.trans (List.append_nil _)⟩
  writes := by
    intro mem arg r hr hn
    obtain ⟨l', hl', -, happ⟩ := h.stream hr hn
    exact ⟨l', hl', happ.contents_eq⟩

/-- A call that is made has an argument to read. -/
theorem exists_record (hstep : l.call c = some l') : ∃ r, c.record = some r := by
  unfold call at hstep
  split at hstep
  · obtain ⟨n, hn, -⟩ := Option.bind_eq_some_iff.1 hstep
    rw [additionalBytes_eq] at hn
    obtain ⟨r, hr, -⟩ := Option.map_eq_some_iff.1 hn
    exact ⟨r, hr⟩
  · rcases stream_cases l c.memory c.argument with ⟨r, -, -, -, hr, -⟩ | ⟨s, hr, -⟩ | ⟨-, hnone⟩
    · exact ⟨r, hr⟩
    · exact ⟨_, hr⟩
    · cases hnone.symm.trans hstep

/-- A call that returns keeps the policy. -/
theorem Grown.step (h : Grown l) {r : Record} (hr : c.record = some r)
    (hused : l.bytesUsed = 37 + recordSize (cs.filter fun c => !c.throws))
    (hlt : l.bytesUsed + r.encode.length < 2 ^ 63) (hreturns : c.throws = false)
    (hstep : l.call c = some l') :
    Grown l' ∧ l'.bytesUsed = 37 + recordSize ((cs ++ [c]).filter fun c => !c.throws) := by
  obtain ⟨l'', hstream, h', happ⟩ := h.stream hr hlt
  have hstep' : l.stream c.memory c.argument = some l' := by
    rwa [call, hreturns, if_neg Bool.false_ne_true] at hstep
  obtain rfl : l'' = l' := Option.some.inj (hstream.symm.trans hstep')
  refine ⟨h', ?_⟩
  rw [happ.bytesUsed_eq h.toSound, hused, List.filter_append, recordSize_append,
    List.filter_singleton, hreturns]
  simp only [Bool.not_false, cond_true]
  rw [recordSize_singleton hr, Nat.add_assoc]

/-- A call in which an allocation throws breaks the policy: the same call made again would write
outside of the buffer. -/
theorem Grown.not_policy (h : Grown l) {r : Record} (hr : c.record = some r)
    (hlt : l.bytesUsed + r.encode.length < 2 ^ 63) (hthrows : c.throws = true)
    (hstep : l.call c = some l') : ¬ Policy cs l' := by
  intro hpolicy
  rw [call, hthrows, if_pos rfl] at hstep
  obtain ⟨n, hn, hresize⟩ := Option.bind_eq_some_iff.1 hstep
  obtain ⟨size, hsize, rfl⟩ := Option.map_eq_some_iff.1 hresize
  rw [additionalBytes_eq] at hn
  rw [show c.argument.record c.memory = some r from hr] at hn
  obtain rfl := Option.some.inj hn
  obtain ⟨hfull, hroom⟩ := required_le_newBufferSize hsize
  rw [Nat.add_mod_mod] at hfull hroom
  obtain ⟨l'', hstream, -⟩ := hpolicy.writes c.memory c.argument r hr hlt
  have hfits : l.bytesUsed + r.encode.length ≤ l.block.length :=
    le_length_block_of_stream (l := { l with bufferSize := size }) hr hroom hstream
  rw [h.length_block] at hfits
  have hle := Nat.mod_le (l.bytesUsed + r.encode.length) (2 ^ 64)
  omega

/-- Calls that return can be made one after the other. -/
theorem Grown.exec_isSome (h : Grown l) (l₀ : LogLine)
    (hcs : ∀ c ∈ cs, c.throws = false ∧ c.record.isSome)
    (hlt : l.bytesUsed + recordSize cs < 2 ^ 63) : ((calls l₀).exec l cs).isSome := by
  induction cs generalizing l with
  | nil => rfl
  | cons c cs ih =>
    obtain ⟨hreturns, hsome⟩ := hcs c List.mem_cons_self
    obtain ⟨r, hr⟩ := Option.isSome_iff_exists.1 hsome
    rw [← List.singleton_append, recordSize_append, recordSize_singleton hr, ← Nat.add_assoc] at hlt
    obtain ⟨l₁, hstream, h₁, happ⟩ := h.stream hr (lt_of_le_of_lt (Nat.le_add_right _ _) hlt)
    have hstep : (calls l₀).step l c = some l₁ := by
      show l.call c = some l₁
      rwa [call, hreturns, if_neg Bool.false_ne_true]
    rw [Machine.exec_cons, hstep, Option.bind_some]
    exact ih h₁ (fun c hc => hcs c (List.mem_cons_of_mem _ hc))
      (by rwa [happ.bytesUsed_eq h.toSound])

end Policy

/-- The growth policy: throughout a sequence of `operator<<` on a new line, the line is on the heap
exactly when its bytes do not fit in the stack buffer, its buffer holds them and is not too large,
and neither a growth nor another `operator<<` changes the bytes in use, if and only if no allocation
throws.  Then every call returns that has an argument to read. -/
theorem growth_policy_iff (garbage : List.Vector Byte stackBufferSize) (header : Header)
    {cs : List Call} (hlt : 37 + recordSize cs < 2 ^ 63) :
    ∃ l, construct garbage header = some l ∧
      ((calls l).Throughout Policy cs ↔ (calls l).Obeys (fun _ _ c => c.throws = false) cs) ∧
      ((∀ c ∈ cs, c.throws = false ∧ c.record.isSome) → ((calls l).exec l cs).isSome) := by
  obtain ⟨l, hconstruct, hgrown, hheader⟩ := Grown.construct garbage header
  refine ⟨l, hconstruct, ?_, fun hcs => ?_⟩
  · refine Machine.throughout_iff (Q := fun cs l => Grown l ∧
      l.bytesUsed = 37 + recordSize (cs.filter fun c => !c.throws)) cs ⟨hgrown, hheader⟩
      (fun _ _ h => h.1.policy h.2) ?_ ?_
    · intro cs' l c l' hpre ⟨h, hused⟩ hreturns hstep
      obtain ⟨r, hr⟩ := exists_record hstep
      exact h.step hr hused (used_lt hlt hpre hr hused) hreturns hstep
    · intro cs' l c l' hpre ⟨h, hused⟩ hthrows hstep
      obtain ⟨r, hr⟩ := exists_record hstep
      exact h.not_policy hr (used_lt hlt hpre hr hused) (Bool.not_eq_false _ ▸ hthrows) hstep
  · exact hgrown.exec_isSome l hcs (by rwa [hheader])

set_option maxRecDepth 8000 in
/-- `std::make_unique` throws when a string of 200 characters would take the line to the heap: the
line is on the stack with `m_bufferSize` 512, and the same call would now write outside of it. -/
theorem exists_enlarged_on_stack : ∃ l l',
    construct (.replicate _ 0) ⟨0, 0, 0, 0, 0, .info⟩ = some l ∧
      (calls l).exec l [⟨fun _ => [], .string (.replicate 200 65), true⟩] = some l' ∧
      l'.isHeapAllocated = false ∧ l'.bufferSize = 512 ∧
      l'.stream (fun _ => []) (.string (.replicate 200 65)) = none :=
  ⟨_, _, rfl, rfl, rfl, rfl, rfl⟩

/-- The string that takes a line to the heap, and an `int32_t` behind it. -/
theorem growth_policy_iff_string : ∃ l l',
    construct (.replicate _ 0) ⟨0, 0, 0, 0, 0, .info⟩ = some l ∧
      (calls l).exec l [⟨fun _ => [], .string (.replicate 200 65), false⟩,
        ⟨fun _ => [], .int32 7, false⟩] = some l' ∧
      l'.bytesUsed = 251 ∧ l'.isHeapAllocated = true ∧ l'.bufferSize = 512 := by
  let cs : List Call := [⟨fun _ => [], .string (.replicate 200 65), false⟩,
    ⟨fun _ => [], .int32 7, false⟩]
  have hsize : recordSize cs = 214 := by
    rw [show cs = [cs[0]] ++ [cs[1]] from rfl, recordSize_append,
      recordSize_singleton (r := .cstring (.replicate 200 65)) rfl,
      recordSize_singleton (r := .int32 7) rfl, Record.length_cstring, List.length_replicate]
    rfl
  have hlt : 37 + recordSize cs < 2 ^ 63 := by omega
  obtain ⟨l, hl, hpolicy, hreturns⟩ :=
    growth_policy_iff (.replicate _ 0) ⟨0, 0, 0, 0, 0, .info⟩ hlt
  obtain ⟨l', hl'⟩ := Option.isSome_iff_exists.1
    (hreturns (by simp [cs, Call.record, Argument.record]))
  have h := hpolicy.2 (fun cs' c _ _ hpre _ _ => ?_) cs l' List.prefix_rfl hl'
  · have hused : l'.bytesUsed = 251 := h.used_eq.trans (congrArg (37 + ·) hsize)
    have hheap : l'.isHeapAllocated = true := h.heap_iff.2 (by omega)
    obtain ⟨hmin, hmax⟩ := h.heap hheap
    exact ⟨l, l', hl, hl', hused, hheap, by omega⟩
  · have hc : c ∈ cs := hpre.subset (List.mem_append_right _ (List.mem_singleton_self c))
    simp only [cs, List.mem_cons, List.not_mem_nil, or_false] at hc
    rcases hc with rfl | rfl <;> rfl

end LogLine

end ZephyrLog
