import Mathlib.Data.Nat.Digits.Defs

/-!
# Blocks of bytes

An integer of `k` bytes is stored in little-endian order (`toBytes`, `ofBytes`).  A block is a list
of fixed length; `splice` writes over a part of it and `load` reads a part of it, with no value
where the part does not lie in the block.  `scan` is the loop that reads one item after the other up
to a given offset; on items that carry their own length it gives back what was written
(`scan_flatMap`).
-/

namespace ZephyrLog

/-- A byte. -/
abbrev Byte := BitVec 8

/-! ## Integers -/

/-- The `k` low bytes of a number, the least significant first. -/
def littleEndian : ℕ → ℕ → List Byte
  | 0, _ => []
  | k + 1, n => BitVec.ofNat 8 n :: littleEndian k (n / 256)

/-- The number that little-endian bytes stand for. -/
def ofLittleEndian (bs : List Byte) : ℕ := Nat.ofDigits 256 (bs.map BitVec.toNat)

@[simp] theorem length_littleEndian (k n : ℕ) : (littleEndian k n).length = k := by
  induction k generalizing n with
  | zero => rfl
  | succ k ih => simp [littleEndian, ih]

theorem ofLittleEndian_littleEndian (k n : ℕ) :
    ofLittleEndian (littleEndian k n) = n % 256 ^ k := by
  induction k generalizing n with
  | zero => simp [littleEndian, ofLittleEndian, Nat.mod_one]
  | succ k ih =>
    have hrest : Nat.ofDigits 256 ((littleEndian k (n / 256)).map BitVec.toNat)
        = n / 256 % 256 ^ k := ih (n / 256)
    unfold littleEndian ofLittleEndian
    rw [List.map_cons, Nat.ofDigits_cons, hrest, BitVec.toNat_ofNat, pow_succ' 256 k]
    exact Nat.mod_mul.symm

/-- The bytes of an integer of `k` bytes. -/
def toBytes (k : ℕ) (v : BitVec (8 * k)) : List Byte := littleEndian k v.toNat

/-- The integer of `k` bytes that these bytes are. -/
def ofBytes (k : ℕ) (bs : List Byte) : BitVec (8 * k) := BitVec.ofNat (8 * k) (ofLittleEndian bs)

@[simp] theorem length_toBytes (k : ℕ) (v : BitVec (8 * k)) : (toBytes k v).length = k :=
  length_littleEndian k v.toNat

@[simp] theorem ofBytes_toBytes (k : ℕ) (v : BitVec (8 * k)) : ofBytes k (toBytes k v) = v := by
  have hpow : 256 ^ k = 2 ^ (8 * k) := by rw [pow_mul]; rfl
  apply BitVec.eq_of_toNat_eq
  unfold ofBytes toBytes
  rw [ofLittleEndian_littleEndian, BitVec.toNat_ofNat, hpow, Nat.mod_mod, Nat.mod_eq_of_lt v.isLt]

/-! ## Writing and reading a part of a block -/

section Block

variable {β : Type*} {block bs : List β} {i n : ℕ}

/-- The block with `bs` written over it from offset `i` on. -/
def splice (block : List β) (i : ℕ) (bs : List β) : List β :=
  block.take i ++ bs ++ block.drop (i + bs.length)

/-- The `n` values from offset `i` on, if they lie in the block. -/
def load (block : List β) (i n : ℕ) : Option (List β) :=
  if i + n ≤ block.length then some ((block.drop i).take n) else none

theorem length_splice (h : i + bs.length ≤ block.length) :
    (splice block i bs).length = block.length := by
  simp only [splice, List.length_append, List.length_take, List.length_drop]
  omega

theorem take_splice (h : i ≤ block.length) :
    (splice block i bs).take (i + bs.length) = block.take i ++ bs := by
  have hlen : (block.take i ++ bs).length = i + bs.length := by
    simp only [List.length_append, List.length_take]
    omega
  unfold splice
  rw [← hlen, List.take_left]

theorem load_zero (h : n ≤ block.length) : load block 0 n = some (block.take n) := by
  simp [load, h]

theorem load_append (pre bs post : List β) :
    load (pre ++ bs ++ post) pre.length bs.length = some bs := by
  have hin : pre.length + bs.length ≤ (pre ++ bs ++ post).length := by
    simp only [List.length_append]
    omega
  unfold load
  rw [if_pos hin, List.append_assoc, List.drop_left, List.take_left]

end Block

/-- The integer of `k` bytes at offset `i`. -/
def loadInt (block : List Byte) (i k : ℕ) : Option (BitVec (8 * k)) :=
  (load block i k).map (ofBytes k)

theorem loadInt_append (pre post : List Byte) (k : ℕ) (v : BitVec (8 * k)) :
    loadInt (pre ++ toBytes k v ++ post) pre.length k = some v := by
  have hload := load_append pre (toBytes k v) post
  rw [length_toBytes] at hload
  rw [loadInt, hload, Option.map_some, ofBytes_toBytes]

/-! ## Reading item after item -/

section Scan

variable {β ρ τ : Type*}

/-- Reads items from offset `b` until `stop` is reached or passed.  `read b` is the item at `b` and
the number of units it takes after its first. -/
def scan (read : ℕ → Option (τ × ℕ)) (stop b : ℕ) : Option (List τ × ℕ) :=
  if b < stop then
    match read b with
    | none => none
    | some (item, n) =>
      match scan read stop (b + 1 + n) with
      | none => none
      | some (items, last) => some (item :: items, last)
  else some ([], b)
termination_by stop - b

theorem scan_of_le {read : ℕ → Option (τ × ℕ)} {stop b : ℕ} (h : stop ≤ b) :
    scan read stop b = some ([], b) := by
  rw [scan, if_neg (not_lt.2 h)]

theorem scan_cons {read : ℕ → Option (τ × ℕ)} {stop b n last : ℕ} {item : τ} {items : List τ}
    (hlt : b < stop) (hread : read b = some (item, n))
    (hscan : scan read stop (b + 1 + n) = some (items, last)) :
    scan read stop b = some (item :: items, last) := by
  rw [scan, if_pos hlt, hread]
  simp only [hscan]

/-- Where every record is read back from wherever it lies in a block, the loop reads a sequence of
records back and stops at its end. -/
theorem scan_flatMap (encode : ρ → List β) (item : ρ → τ) (read : List β → ℕ → Option (τ × ℕ))
    (records : List ρ)
    (hread : ∀ r ∈ records, ∀ pre post, ∃ n, (encode r).length = n + 1 ∧
      read (pre ++ encode r ++ post) pre.length = some (item r, n))
    (pre post : List β) :
    scan (read (pre ++ records.flatMap encode ++ post))
        (pre ++ records.flatMap encode).length pre.length
      = some (records.map item, (pre ++ records.flatMap encode).length) := by
  induction records generalizing pre with
  | nil => simp [scan_of_le]
  | cons r records ih =>
    have hblock : pre ++ (r :: records).flatMap encode
        = pre ++ encode r ++ records.flatMap encode := by simp
    obtain ⟨n, hn, hr⟩ := hread r List.mem_cons_self pre (records.flatMap encode ++ post)
    have hrest := ih (fun s hs => hread s (List.mem_cons_of_mem r hs)) (pre ++ encode r)
    have hnext : (pre ++ encode r).length = pre.length + 1 + n := by
      rw [List.length_append, hn]
      omega
    rw [hnext] at hrest
    rw [hblock]
    refine scan_cons ?_ ?_ hrest
    · simp only [List.length_append]
      omega
    · rw [List.append_assoc (pre ++ encode r)]
      exact hr

end Scan

end ZephyrLog
