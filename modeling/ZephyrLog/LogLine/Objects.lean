import ZephyrLog.Lib.Transition
import ZephyrLog.LogLine.RoundTrip

/-!
# Programs over several lines

A program constructs lines, streams into them and moves them into each other in any order.  The
defaulted moves copy `m_bytesUsed` and `m_bufferSize` and take the heap buffer away, so a line that
was moved from while it was on the heap claims the size of a buffer it no longer has; and a line in
which `std::make_unique` has thrown claims that of one it never got.  All lines stay sound exactly
as long as no line on the heap is moved from and no allocation throws (`inBounds_iff`).
-/

namespace ZephyrLog

namespace LogLine

/-- Every read of `stringify` and every write of `operator<<` lies in the buffer, whose size is what
`m_bufferSize` says. -/
structure InBounds (l : LogLine) : Prop extends Sound l where
  reads : (decode l.block l.bytesUsed).isSome
  writes : ∀ mem arg r, Argument.record mem arg = some r →
    l.bytesUsed + r.encode.length < 2 ^ 64 → (l.stream mem arg).isSome

/-! ## What an operation that stays in bounds has done -/

/-- The buffer has the size that `m_bufferSize` says, and more than the stack's on the heap. -/
structure Sized (l : LogLine) : Prop where
  length_block : l.block.length = l.bufferSize
  lt : l.bufferSize < 2 ^ 64
  heap : l.isHeapAllocated → stackBufferSize < l.bufferSize

namespace Sized

variable {l l' : LogLine} {n : ℕ}

theorem empty (garbage : List.Vector Byte stackBufferSize) :
    Sized ⟨0, stackBufferSize, none, garbage⟩ where
  length_block := garbage.2
  lt := by show stackBufferSize < 2 ^ 64; decide
  heap := by simp [isHeapAllocated]

theorem put (h : Sized l) {bs : List Byte} (hput : l.put bs = some l') :
    Sized l' ∧ l'.bytesUsed = l.bytesUsed + bs.length ∧ l'.bytesUsed ≤ l'.bufferSize := by
  obtain ⟨hfit, hblock, hused, hsize, hheap⟩ := of_put hput
  refine ⟨⟨?_, ?_, ?_⟩, hused, ?_⟩
  · rw [hblock, length_splice hfit, hsize, h.length_block]
  · rw [hsize]
    exact h.lt
  · rw [hsize, hheap]
    exact h.heap
  · rw [hused, hsize, ← h.length_block]
    exact hfit

theorem grow (hgrow : l.grow n = some l') (hn : n < 2 ^ 64) (hlarge : stackBufferSize < n) :
    Sized l' ∧ l'.bytesUsed = l.bytesUsed := by
  obtain ⟨hlen, hsize, -, hused⟩ := of_grow hgrow
  exact ⟨⟨hlen.trans hsize.symm, hsize ▸ hn, fun _ => hsize ▸ hlarge⟩, hused⟩

theorem resize (h : Sized l) (hresize : l.resizeBufferIfNeeded n = some l') :
    Sized l' ∧ l'.bytesUsed = l.bytesUsed := by
  have hlt := Nat.mod_lt (l.bytesUsed + n) (Nat.two_pow_pos 64)
  have hlt' := Nat.mod_lt (2 * l.bufferSize) (Nat.two_pow_pos 64)
  rcases of_resize hresize with ⟨-, rfl⟩ | ⟨hfull, ⟨-, hgrow⟩ | ⟨hheap, hgrow⟩⟩
  · exact ⟨h, rfl⟩
  · exact grow hgrow (max_lt (by decide) hlt) (lt_max_of_lt_left (by decide))
  · have hlarge := h.heap hheap
    exact grow hgrow (max_lt hlt' hlt) (lt_max_of_lt_right (by omega))

/-- The bytes appended by a sized line to itself. -/
def Written (l l' : LogLine) (n : ℕ) : Prop :=
  Sized l' ∧ l'.bytesUsed = l.bytesUsed + n ∧ l'.bytesUsed ≤ l'.bufferSize

theorem encodeScalar (h : Sized l) {type : ArgType} {arg : BitVec (8 * n)}
    (hencode : l.encodeScalar type n arg = some l') : Written l l' (n + 1) := by
  obtain ⟨l₁, l₂, hresize, htag, harg⟩ := of_encodeScalar hencode
  obtain ⟨h₁, hused₁⟩ := h.resize hresize
  obtain ⟨h₂, hused₂, -⟩ := h₁.put htag
  obtain ⟨h₃, hused₃, hle⟩ := h₂.put harg
  rw [length_toBytes] at hused₃
  rw [List.length_singleton] at hused₂
  exact ⟨h₃, by omega, hle⟩

theorem encodeCString (h : Sized l) {s : List Byte} (hencode : l.encodeCString s = some l') :
    Written l l' (Record.cstring s).encode.length := by
  obtain ⟨l₁, l₂, l₃, hresize, htag, hsize, hchars⟩ := of_encodeCString hencode
  obtain ⟨h₁, hused₁⟩ := h.resize hresize
  obtain ⟨h₂, hused₂, -⟩ := h₁.put htag
  obtain ⟨h₃, hused₃, hle⟩ := h₂.put hsize
  rw [length_toBytes] at hused₃
  rw [List.length_singleton] at hused₂
  rw [Record.length_cstring]
  rcases hchars with hchars | ⟨rfl, rfl⟩
  · obtain ⟨h₄, hused₄, hle⟩ := h₃.put hchars
    exact ⟨h₄, by omega, hle⟩
  · exact ⟨h₃, by rw [List.length_nil]; omega, hle⟩

/-- An `operator<<` that stays in bounds has an argument to write, and room for it. -/
theorem stream (h : Sized l) {mem : Memory} {arg : Argument}
    (hstream : l.stream mem arg = some l') :
    ∃ r, arg.record mem = some r ∧ Written l l' r.encode.length := by
  rcases stream_cases l mem arg with ⟨r, type, size, val, hr, hencode, heq⟩ | ⟨s, hr, heq⟩ |
    ⟨-, heq⟩
  · refine ⟨r, hr, ?_⟩
    rw [hencode, List.length_cons, length_toBytes]
    exact h.encodeScalar (heq.symm.trans hstream)
  · exact ⟨_, hr, h.encodeCString (heq.symm.trans hstream)⟩
  · cases heq.symm.trans hstream

theorem construct {garbage : List.Vector Byte stackBufferSize} {header : Header}
    (hconstruct : construct garbage header = some l) : Sized l :=
  construct_induction hconstruct (empty garbage) fun _ _ _ h hput => (h.put hput).1

end Sized

/-! ## Well-formed lines -/

/-- A sound line that holds a header and records. -/
structure WellFormed (l : LogLine) : Prop where
  sized : Sized l
  used_le : l.bytesUsed ≤ l.bufferSize
  contents : ∃ (header : Header) (records : List Record),
    l.contents = header.encode ++ records.flatMap Record.encode

namespace WellFormed

variable {l l' : LogLine}

theorem sound (h : WellFormed l) : Sound l := ⟨h.sized.length_block, h.used_le⟩

theorem of_construct {garbage : List.Vector Byte stackBufferSize} {header : Header}
    (hconstruct : construct garbage header = some l) : WellFormed l := by
  obtain ⟨l', hl', hsound, hcontents⟩ := construct_spec garbage header
  obtain rfl : l' = l := Option.some.inj (hl'.symm.trans hconstruct)
  exact ⟨.construct hconstruct, hsound.used_le, header, [], by rw [hcontents]; simp⟩

theorem stream (h : WellFormed l) {mem : Memory} {arg : Argument}
    (hstream : l.stream mem arg = some l') : WellFormed l' := by
  obtain ⟨r, hr, hsized, hused, hle⟩ := h.sized.stream hstream
  have hlt := hsized.lt
  obtain ⟨l'', hl'', happ⟩ := stream_appends h.sound hr (by omega)
  obtain rfl : l'' = l' := Option.some.inj (hl''.symm.trans hstream)
  obtain ⟨header, records, hcontents⟩ := h.contents
  refine ⟨hsized, hle, header, records ++ [r], ?_⟩
  rw [happ.contents_eq, hcontents]
  simp

theorem inBounds (h : WellFormed l) : l.InBounds where
  toSound := h.sound
  reads := by
    obtain ⟨header, records, hcontents⟩ := h.contents
    have hlen := h.sound.length_contents
    rw [hcontents, List.length_append, Header.length_encode] at hlen
    have hle := h.used_le
    have hlt := h.sized.lt
    rw [(decode_of_contents h.sound hcontents (by omega)).2]
    rfl
  writes := by
    intro mem arg r hr hlt
    obtain ⟨l', hl', -⟩ := stream_appends h.sound hr hlt
    rw [hl']
    rfl

/-- A line on the stack is left as it is when it is moved from. -/
theorem moved_of_stack (l : LogLine) (hstack : l.isHeapAllocated = false) :
    { l with heapBuffer := none } = l := by
  obtain ⟨used, size, heap, stack⟩ := l
  cases heap with
  | none => rfl
  | some heap => cases hstack

/-- A line is unsound after an allocation has thrown. -/
theorem not_sound_badAlloc (h : WellFormed l) {mem : Memory} {arg : Argument}
    (hthrows : l.streamBadAlloc mem arg = some l') : ¬ Sound l' := by
  intro hsound
  obtain ⟨n, -, hresize⟩ := Option.bind_eq_some_iff.1 hthrows
  obtain ⟨size, hsize, rfl⟩ := Option.map_eq_some_iff.1 hresize
  obtain ⟨hlt, hle⟩ := required_le_newBufferSize hsize
  have hblock : l.block.length = size := hsound.length_block
  have hold := h.sized.length_block
  omega

/-- A line on the heap is unsound after it was moved from. -/
theorem not_sound_moved (h : WellFormed l) (hheap : l.isHeapAllocated = true) :
    ¬ Sound { l with heapBuffer := none } := by
  intro hsound
  have hlen : l.stackBuffer.val.length = l.bufferSize := hsound.length_block
  have hlarge := h.sized.heap hheap
  rw [l.stackBuffer.2] at hlen
  omega

end WellFormed

/-! ## Objects -/

/-- A statement of a program over the objects named by `ι`. -/
inductive Op (ι : Type) where
  /-- `LogLine i(level, file, function, line)` -/
  | construct (i : ι) (garbage : List.Vector Byte stackBufferSize) (header : Header)
  /-- `i << arg` -/
  | stream (i : ι) (mem : Memory) (arg : Argument)
  /-- `i << arg`, in which `std::make_unique` throws; the program catches it and goes on. -/
  | badAlloc (i : ι) (mem : Memory) (arg : Argument)
  /-- `LogLine i(std::move(other))` -/
  | moveConstruct (i other : ι)
  /-- `i = std::move(other)` -/
  | moveAssign (i other : ι)

variable {ι : Type}

/-- The objects constructed so far. -/
abbrev Objects (ι : Type) := ι → Option LogLine

variable [DecidableEq ι]

/-- A new or assigned object and what is left of the one moved from. -/
def Objects.afterMove (s : Objects ι) (i other : ι) (moved : LogLine × LogLine) : Objects ι :=
  Function.update (Function.update s other (some moved.2)) i (some moved.1)

/-- One statement; it has no value where the program has no defined behaviour.  Assigning an object
to itself leaves it as it is. -/
def Objects.step (s : Objects ι) : Op ι → Option (Objects ι)
  | .construct i garbage header =>
    (LogLine.construct garbage header).map fun l => Function.update s i (some l)
  | .stream i mem arg => do
    let l ← s i
    let l' ← l.stream mem arg
    some (Function.update s i (some l'))
  | .badAlloc i mem arg => do
    let l ← s i
    let l' ← l.streamBadAlloc mem arg
    some (Function.update s i (some l'))
  | .moveConstruct i other =>
    if i = other then none else (s other).map fun o => s.afterMove i other (moveConstruct o)
  | .moveAssign i other => do
    let l ← s i
    let o ← s other
    some (if i = other then s else s.afterMove i other (l.moveAssign o))

/-- Any number of `LogLine` objects, constructed, streamed to and moved in any order. -/
def objects (ι : Type) [DecidableEq ι] : Machine (Objects ι) (Op ι) where
  init := fun _ => none
  step := Objects.step

/-- No line on the heap is moved into another object. -/
def NoHeapMove (s : Objects ι) (op : Op ι) : Prop :=
  ∀ i other, i ≠ other → op = .moveConstruct i other ∨ op = .moveAssign i other →
    ∀ o, s other = some o → o.isHeapAllocated = false

/-- `std::make_unique` does not throw. -/
def NoBadAlloc (op : Op ι) : Prop := ∀ i mem arg, op ≠ .badAlloc i mem arg

/-- Every object satisfies `p`. -/
def Objects.All (p : LogLine → Prop) (s : Objects ι) : Prop := ∀ i l, s i = some l → p l

theorem Objects.All.update {p : LogLine → Prop} {s : Objects ι} (h : s.All p) {i : ι} {l : LogLine}
    (hl : p l) : Objects.All p (Function.update s i (some l)) := by
  intro j l' hj
  by_cases hji : j = i
  · subst hji
    rw [Function.update_self, Option.some.injEq] at hj
    exact hj ▸ hl
  · rw [Function.update_of_ne hji] at hj
    exact h j l' hj

/-- The two moves leave the same objects behind. -/
theorem moveAssign_eq (l o : LogLine) : l.moveAssign o = moveConstruct o := rfl

/-- What a statement does. -/
theorem step_cases {s s' : Objects ι} {op : Op ι} (h : s.step op = some s') :
    (∃ i garbage header l, op = .construct i garbage header ∧
      LogLine.construct garbage header = some l ∧ s' = Function.update s i (some l)) ∨
    (∃ i mem arg l l', op = .stream i mem arg ∧ s i = some l ∧ l.stream mem arg = some l' ∧
      s' = Function.update s i (some l')) ∨
    (∃ i mem arg l l', op = .badAlloc i mem arg ∧ s i = some l ∧
      l.streamBadAlloc mem arg = some l' ∧ s' = Function.update s i (some l')) ∨
    (∃ i other o, i ≠ other ∧ (op = .moveConstruct i other ∨ op = .moveAssign i other) ∧
      s other = some o ∧ s' = s.afterMove i other (moveConstruct o)) ∨
    (∃ i, op = .moveAssign i i ∧ s' = s) := by
  cases op with
  | construct i garbage header =>
    obtain ⟨l, hl, rfl⟩ := Option.map_eq_some_iff.1 h
    exact .inl ⟨i, garbage, header, l, rfl, hl, rfl⟩
  | stream i mem arg =>
    obtain ⟨l, hl, h⟩ := Option.bind_eq_some_iff.1 h
    obtain ⟨l', hl', h⟩ := Option.bind_eq_some_iff.1 h
    exact .inr (.inl ⟨i, mem, arg, l, l', rfl, hl, hl', (Option.some.inj h).symm⟩)
  | badAlloc i mem arg =>
    obtain ⟨l, hl, h⟩ := Option.bind_eq_some_iff.1 h
    obtain ⟨l', hl', h⟩ := Option.bind_eq_some_iff.1 h
    exact .inr (.inr (.inl ⟨i, mem, arg, l, l', rfl, hl, hl', (Option.some.inj h).symm⟩))
  | moveConstruct i other =>
    obtain ⟨hne, h⟩ := Option.ite_none_left_eq_some.1 h
    obtain ⟨o, ho, rfl⟩ := Option.map_eq_some_iff.1 h
    exact .inr (.inr (.inr (.inl ⟨i, other, o, hne, .inl rfl, ho, rfl⟩)))
  | moveAssign i other =>
    obtain ⟨l, hl, h⟩ := Option.bind_eq_some_iff.1 h
    obtain ⟨o, ho, h⟩ := Option.bind_eq_some_iff.1 h
    by_cases heq : i = other
    · subst heq
      rw [if_pos rfl, Option.some.injEq] at h
      exact .inr (.inr (.inr (.inr ⟨i, rfl, h.symm⟩)))
    · rw [if_neg heq, Option.some.injEq, moveAssign_eq] at h
      exact .inr (.inr (.inr (.inl ⟨i, other, o, heq, .inr rfl, ho, h.symm⟩)))

/-- A move of a line on the heap leaves an unsound object behind. -/
theorem not_all_of_heapMove {s s' : Objects ι} (h : s.All WellFormed) {op : Op ι}
    (hmove : ¬ NoHeapMove s op) (hs : s.step op = some s') : ¬ s'.All Sound := by
  simp only [NoHeapMove, not_forall] at hmove
  obtain ⟨i, other, hne, hop, o, ho, hheap⟩ := hmove
  have hs' : s' = s.afterMove i other (moveConstruct o) := by
    rcases step_cases hs with ⟨_, _, _, _, rfl, -⟩ | ⟨_, _, _, _, _, rfl, -⟩ |
      ⟨_, _, _, _, _, rfl, -⟩ | ⟨i', other', o', -, hop', ho', rfl⟩ | ⟨_, rfl, -⟩
    · simp at hop
    · simp at hop
    · simp at hop
    · rcases hop with rfl | rfl <;> rcases hop' with hop' | hop' <;> cases hop' <;>
        rw [ho, Option.some.injEq] at ho' <;> rw [ho']
    · rcases hop with hop | hop
      · cases hop
      · cases hop
        exact absurd rfl hne
  have hleft : s' other = some { o with heapBuffer := none } := by
    rw [hs', Objects.afterMove, Function.update_of_ne hne.symm, Function.update_self]
    rfl
  exact fun hall => (h other o ho).not_sound_moved (by simpa using hheap) (hall other _ hleft)

/-- An allocation that throws leaves an unsound object behind. -/
theorem not_all_of_badAlloc {s s' : Objects ι} (h : s.All WellFormed) {op : Op ι}
    (hthrows : ¬ NoBadAlloc op) (hs : s.step op = some s') : ¬ s'.All Sound := by
  simp only [NoBadAlloc, not_forall, not_not] at hthrows
  obtain ⟨i, mem, arg, rfl⟩ := hthrows
  obtain ⟨l, hl, hs⟩ := Option.bind_eq_some_iff.1 hs
  obtain ⟨l', hl', hs⟩ := Option.bind_eq_some_iff.1 hs
  obtain rfl := Option.some.inj hs
  exact fun hall => (h i l hl).not_sound_badAlloc hl' (hall i l' (Function.update_self i _ s))

/-- Throughout a program every object, moved-from ones included, has the buffer that `m_bufferSize`
says and is read and written inside it, if and only if the program never moves a line on the heap
into another object and no allocation throws in it. -/
theorem inBounds_iff (ops : List (Op ι)) :
    (objects ι).Throughout (fun _ s => s.All InBounds) ops ↔
      (objects ι).Obeys (fun _ s op => NoHeapMove s op ∧ NoBadAlloc op) ops := by
  refine Machine.throughout_iff (Q := fun _ s => s.All WellFormed) ops ?_ ?_ ?_ ?_
  · intro i l h
    cases h
  · exact fun _ s h i l hl => (h i l hl).inBounds
  · intro _ s op s' _ h hguard hs
    rcases step_cases hs with ⟨i, garbage, header, l, -, hl, rfl⟩ |
      ⟨i, mem, arg, l, l', -, hl, hl', rfl⟩ | ⟨i, mem, arg, l, l', hop, -⟩ |
      ⟨i, other, o, hne, hop, ho, rfl⟩ | ⟨i, -, rfl⟩
    · exact h.update (.of_construct hl)
    · exact h.update ((h i l hl).stream hl')
    · exact absurd hop (hguard.2 i mem arg)
    · have hstack := hguard.1 i other hne hop o ho
      refine Objects.All.update (h.update ?_) (h other o ho)
      show WellFormed { o with heapBuffer := none }
      rw [WellFormed.moved_of_stack o hstack]
      exact h other o ho
    · exact h
  · intro _ s op s' _ h hguard hs hall
    have hsound : s'.All Sound := fun i l hl => (hall i l hl).toSound
    by_cases hmove : NoHeapMove s op
    · exact not_all_of_badAlloc h (fun hthrows => hguard ⟨hmove, hthrows⟩) hs hsound
    · exact not_all_of_heapMove h hmove hs hsound

set_option maxRecDepth 8000 in
/-- A string of 200 characters takes a line to the heap.  After it was moved into another line,
`m_bufferSize` says 512 bytes of a buffer of 224, and the next `operator<<` would write at 246. -/
theorem exists_unsound_moved : ∃ s : Objects Bool,
    (objects Bool).exec (objects Bool).init
      [.construct false (.replicate _ 0) ⟨1, 2, 3, 4, 5, .info⟩,
        .stream false (fun _ => []) (.string (List.replicate 200 97)),
        .moveConstruct true false] = some s ∧
      ∃ l, s false = some l ∧ l.bytesUsed = 246 ∧ l.bufferSize = 512 ∧ l.block.length = 224 ∧
        l.stream (fun _ => []) (.char 120) = none := by
  obtain ⟨s, hs, hfin⟩ := Option.map_eq_some_iff.1 (show
    ((objects Bool).exec (objects Bool).init
      [.construct false (.replicate _ 0) ⟨1, 2, 3, 4, 5, .info⟩,
        .stream false (fun _ => []) (.string (List.replicate 200 97)),
        .moveConstruct true false]).map (fun s => (s false).map fun l =>
          (l.bytesUsed, l.bufferSize, l.block.length, (l.stream (fun _ => []) (.char 120)).isNone))
      = some (some (246, 512, 224, true)) from rfl)
  obtain ⟨l, hl, hfin⟩ := Option.map_eq_some_iff.1 hfin
  simp only [Prod.mk.injEq, Option.isNone_iff_eq_none] at hfin
  exact ⟨s, hs, l, hl, hfin⟩

end LogLine

end ZephyrLog
