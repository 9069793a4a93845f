import ZephyrLog.AsyncLogger.Steps

/-!
# What the logger relies on

`ObservedBuffer` adds to a buffer what the proofs about its logger speak of: the lines that were
pushed and popped, the line in hand inside `tryPop`, and how far `tryPop` is from its end.  `Lawful`
says of these what the worker relies on.  It is the contract between the two buffers, which fulfil
it, and the logger, whose proofs know nothing else of its buffer.
-/

namespace ZephyrLog

/-- A buffer with what the proofs about a logger speak of. -/
class ObservedBuffer (B : Type) (T α L : outParam Type) extends BufferBase B T α L where
  /-- The lines pushed, in the order in which they obtained their places. -/
  entries : B → List L
  popped : B → List (Cell L)
  /-- The line that `tryPop` has moved out and is to return, or has just returned. -/
  inHand : B → List (Cell L)
  /-- `tryPop` is to return false, or has just returned it. -/
  Failed : B → Prop
  /-- There is no line for `tryPop` to return. -/
  Drained : B → Prop
  /-- How many operations `tryPop` is from its end. -/
  left : B → ℕ

namespace BufferBase

open ObservedBuffer

variable {B T α L : Type}

/-- An operation of a thread inside `push`. -/
def Op.OfProducer : Op T α → Prop
  | .push .. | .produce _ | .badAlloc _ => True
  | .tryPop | .consume => False

/-- What the worker relies on in a buffer that starts as `b₀`. -/
structure Lawful [ObservedBuffer B T α L] (b₀ : B) : Prop where
  result_init : ∃ r, result b₀ = some r
  popped_init : popped b₀ = []
  /-- The threads inside `push` leave the consumer alone. -/
  of_producer : ∀ {b b' : B} {op : Op T α}, op.OfProducer → step b op = some b' →
    result b' = result b ∧ popped b' = popped b ∧ inHand b' = inHand b
  of_consumer : ∀ {b b' : B} {op : Op T α}, ¬ op.OfProducer → step b op = some b' →
    entries b' = entries b ∧ (NoPushInFlight b → NoPushInFlight b')
  produce_of_quiet : ∀ {b : B} (t : T), NoPushInFlight b → step b (.produce t) = none
  badAlloc_of_quiet : ∀ {b : B} (t : T), NoPushInFlight b → step b (.badAlloc t) = none
  inHand_of_result : ∀ {b : B}, result b = some (some true) → inHand b = [logline b]
  exists_tryPop : ∀ {b : B} {r}, result b = some r → ∃ b', step b .tryPop = some b'
  tryPop : ∀ {b b' : B}, step b .tryPop = some b' →
    result b' = none ∧ popped b' = popped b ∧ inHand b' = [] ∧ ¬ Failed b' ∧ left b' ≤ 12
  /-- A line is popped when it comes into the hand. -/
  popped_consume : ∀ {b b' : B} {w : List (Cell L)}, step b .consume = some b' →
    popped b = w ++ inHand b → popped b' = w ++ inHand b'
  result_consume : ∀ {b b' : B} {r}, step b .consume = some b' → result b' = some r →
    r = some true ∨ r = some false ∧ inHand b' = [] ∧ Failed b'
  /-- An operation of `tryPop` that is no wait brings it nearer to its end. -/
  left_consume : ∀ {b b' : B}, step b .consume = some b' → b' = b ∨ left b' < left b
  /-- With no push in flight `tryPop` waits for nothing. -/
  exists_consume : ∀ {b : B}, (machine b₀).Reachable Machine.anyStep b → NoPushInFlight b →
    result b = none → ∃ b', step b .consume = some b' ∧ b' ≠ b
  /-- With no push in flight `tryPop` fails only if there is no line. -/
  drained : ∀ {b b' : B}, (machine b₀).Reachable Machine.anyStep b → NoPushInFlight b →
    (Failed b → Drained b) → step b .consume = some b' → Failed b' → Drained b'
  popped_subset : ∀ {b : B}, (machine b₀).Reachable Machine.anyStep b →
    ∀ c ∈ popped b, ∃ e ∈ entries b, c = .line e
  popped_length_le : ∀ {b : B}, (machine b₀).Reachable Machine.anyStep b →
    (popped b).length ≤ (entries b).length

end BufferBase

end ZephyrLog
