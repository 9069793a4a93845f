import ZephyrLog.FileWriter.Model

/-!
# Rolling partitions the log

The lines given to a writer are cut into consecutive parts, one for each file in the order of the
file numbers.  `Rolling` says so for the state after any number of lines: `closed` are the parts of
the files already left, `current` is the part of the open one.
-/

namespace ZephyrLog

/-! ## File names -/

theorem isDigit_toNat {c : Char} (h : c.isDigit) : c.toNat < 256 := by
  simp only [Char.isDigit, Bool.and_eq_true, decide_eq_true_eq] at h
  have := UInt32.le_iff_toNat_le.1 h.2
  exact lt_of_le_of_lt this (by decide)

theorem decimal_injective : Function.Injective decimal := by
  intro m n h
  have hbyte (k : ℕ) : ∀ c ∈ Nat.toDigits 10 k, c.toNat < 256 := fun c hc =>
    isDigit_toNat (Nat.isDigit_of_mem_toDigits (by decide) (by decide) hc)
  have hcode (k : ℕ) : (decimal k).map BitVec.toNat = (Nat.toDigits 10 k).map Char.toNat := by
    unfold decimal
    rw [List.map_map]
    refine List.map_congr_left fun c hc => ?_
    exact Nat.mod_eq_of_lt (hbyte k c hc)
  have hchars : Nat.toDigits 10 m = Nat.toDigits 10 n := by
    refine List.map_injective_iff.2 (fun a b hab => Char.toNat_inj.1 hab) ?_
    rw [← hcode, ← hcode, h]
  rw [← Nat.ofDigitChars_ten_toDigits (n := m), hchars, Nat.ofDigitChars_ten_toDigits]

namespace FileWriter

theorem logFileName_injective (name : Text) : Function.Injective (logFileName name) := by
  intro m n h
  unfold logFileName at h
  have hdigits := List.append_cancel_left (List.append_cancel_right h)
  exact BitVec.eq_of_toNat_eq (decimal_injective hdigits)

/-- The name of the `i`-th file, counted from 0. -/
def nameOf (name : Text) (i : ℕ) : Text := logFileName name (BitVec.ofNat 32 (i + 1))

theorem nameOf_inj {name : Text} {i j : ℕ} (hi : i + 1 < 2 ^ 32) (hj : j + 1 < 2 ^ 32)
    (h : nameOf name i = nameOf name j) : i = j := by
  have hij := congrArg BitVec.toNat (logFileName_injective name h)
  simp only [BitVec.toNat_ofNat] at hij
  omega

/-! ## The parts -/

/-- The part of a file that has been left: it was more than full after its last line only. -/
def Closed (rollSize : ℕ) (part : List Text) : Prop :=
  rollSize < part.flatten.length ∧ part.dropLast.flatten.length ≤ rollSize

/-- The lines in `closed` and `current`, in this order, have been written by a writer that was
constructed in the world `d₀`. -/
structure Rolling (d₀ : World) (name : Text) (rollSize : BitVec 32) (w : FileWriter) (d : World)
    (closed : List (List Text)) (current : List Text) : Prop where
  name_eq : w.name = name
  rollSize_eq : w.rollSize = rollSize
  fileNumber : w.fileNumber = BitVec.ofNat 32 (closed.length + 1)
  bytesWritten : w.bytesWritten = current.flatten.length
  os : w.os = some ⟨nameOf name closed.length, current.flatten.length⟩
  opened : d.files.opened = d₀.files.opened ++ (List.range (closed.length + 1)).map (nameOf name)
  content_closed : ∀ i part, closed[i]? = some part →
    d.files.content (nameOf name i) = some part.flatten
  content_current : d.files.content (nameOf name closed.length) = some current.flatten
  content_other : ∀ f, (∀ i ≤ closed.length, f ≠ nameOf name i) →
    d.files.content f = d₀.files.content f
  full : ∀ part ∈ closed, Closed rollSize.toNat part

/-- The writer after the bytes of a line have gone to its stream `os`, before it looks at the
size. -/
def afterLine (w : FileWriter) (os : Stream Text) (line : Text) : FileWriter :=
  { w with os := some (os.advance line), bytesWritten := w.bytesWritten + line.length }

/-- The files and the terminal at that moment. -/
def worldAfter (w : FileWriter) (d : World) (os : Stream Text) (line : Text) : World :=
  { w.echo d line with files := d.files.write os line }

theorem files_echo (w : FileWriter) (d : World) (line : Text) :
    (w.echo d line).files = d.files := by
  unfold echo
  split <;> rfl

/-- What `tellp` finds before and after the line is its length. -/
theorem counted_eq (w : FileWriter) (os : Stream Text) (line : Text) :
    (if 0 < ((os.advance line).position : ℤ) - os.position then
      w.bytesWritten + (((os.advance line).position : ℤ) - os.position)
    else w.bytesWritten) = w.bytesWritten + line.length := by
  have hwritten : ((os.advance line).position : ℤ) - os.position = line.length := by
    simp [Stream.advance]
  rw [hwritten]
  split <;> omega

theorem write_eq {w : FileWriter} {os : Stream Text} (h : w.os = some os) (d : World)
    (line : Text) : w.write d line =
      if (w.rollSize.toNat : ℤ) < w.bytesWritten + line.length then
        (w.afterLine os line).rollFile (w.worldAfter d os line)
      else (w.afterLine os line, w.worldAfter d os line) := by
  unfold write
  simp only [h, counted_eq, files_echo]
  rfl

namespace Rolling

variable {d₀ d : World} {name : Text} {rollSize : BitVec 32} {w : FileWriter}
  {closed : List (List Text)} {current : List Text}

theorem new (d₀ : World) (logDirectory logFileName : Text) (rollSize : BitVec 32)
    (terminalOutput : Bool) :
    Rolling d₀ (logDirectory ++ logFileName) rollSize
      (FileWriter.new logDirectory logFileName rollSize terminalOutput d₀).1
      (FileWriter.new logDirectory logFileName rollSize terminalOutput d₀).2 [] [] where
  name_eq := rfl
  rollSize_eq := rfl
  fileNumber := rfl
  bytesWritten := rfl
  os := rfl
  opened := rfl
  content_closed := by simp
  content_current := FileSystem.content_openTrunc_self
  content_other := fun _ hf => FileSystem.content_openTrunc (hf 0 le_rfl)
  full := by simp

/-- The stream the writer has open. -/
def stream (name : Text) (closed : List (List Text)) (current : List Text) : Stream Text :=
  ⟨nameOf name closed.length, current.flatten.length⟩

/-- A line goes to the end of the open file. -/
theorem append (h : Rolling d₀ name rollSize w d closed current)
    (hnum : closed.length + 1 < 2 ^ 32) (line : Text) :
    Rolling d₀ name rollSize (w.afterLine (stream name closed current) line)
      (w.worldAfter d (stream name closed current) line) closed (current ++ [line]) where
  name_eq := h.name_eq
  rollSize_eq := h.rollSize_eq
  fileNumber := h.fileNumber
  bytesWritten := by simp [afterLine, h.bytesWritten]
  os := by simp [afterLine, stream, Stream.advance]
  opened := h.opened
  content_closed := by
    intro i part hpart
    have hlt := (List.getElem?_eq_some_iff.1 hpart).1
    have hne : nameOf name i ≠ nameOf name closed.length :=
      fun heq => hlt.ne (nameOf_inj (by omega) hnum heq)
    exact (FileSystem.content_write hne).trans (h.content_closed i part hpart)
  content_current := by
    refine (FileSystem.content_write_self h.content_current).trans ?_
    show some (overwrite current.flatten current.flatten.length line) = _
    rw [overwrite_end]
    simp
  content_other := fun f hf =>
    (FileSystem.content_write (hf _ le_rfl)).trans (h.content_other f hf)
  full := h.full

/-- The open file has become too large: the next one is opened. -/
theorem roll (h : Rolling d₀ name rollSize w d closed current)
    (hnum : closed.length + 2 < 2 ^ 32) (hfull : Closed rollSize.toNat current) :
    Rolling d₀ name rollSize (w.rollFile d).1 (w.rollFile d).2 (closed ++ [current]) [] := by
  have hsucc : BitVec.ofNat 32 (closed.length + 1) + 1 = BitVec.ofNat 32 (closed.length + 1 + 1) :=
    (BitVec.ofNat_add _ 1).symm
  have hname : logFileName w.name (w.fileNumber + 1) = nameOf name (closed.length + 1) := by
    rw [h.name_eq, h.fileNumber, hsucc, nameOf]
  have hne {i : ℕ} (hi : i ≤ closed.length) : nameOf name i ≠ nameOf name (closed.length + 1) := by
    intro heq
    have := nameOf_inj (by omega) (by omega) heq
    omega
  have hlen : (closed ++ [current]).length = closed.length + 1 := by simp
  exact
    { name_eq := h.name_eq
      rollSize_eq := h.rollSize_eq
      fileNumber := by
        rw [hlen, ← hsucc, ← h.fileNumber]
        rfl
      bytesWritten := rfl
      os := by
        rw [hlen, ← hname]
        rfl
      opened := by
        show d.files.opened ++ [logFileName w.name (w.fileNumber + 1)] = _
        rw [hname, h.opened, hlen, List.range_succ (n := closed.length + 1), List.map_append,
          List.append_assoc]
        rfl
      content_closed := by
        intro i part hpart
        have hlt := (List.getElem?_eq_some_iff.1 hpart).1
        rw [hlen] at hlt
        show (d.files.openTrunc (logFileName w.name (w.fileNumber + 1))).content _ = _
        rw [hname, FileSystem.content_openTrunc (hne (by omega))]
        rcases Nat.lt_succ_iff_lt_or_eq.1 hlt with hi | rfl
        · rw [List.getElem?_append_left hi] at hpart
          exact h.content_closed i part hpart
        · rw [List.getElem?_concat_length, Option.some.injEq] at hpart
          exact hpart ▸ h.content_current
      content_current := by
        rw [hlen, ← hname]
        exact FileSystem.content_openTrunc_self
      content_other := by
        intro f hf
        rw [hlen] at hf
        have hf' := hf _ le_rfl
        rw [← hname] at hf'
        exact (FileSystem.content_openTrunc hf').trans
          (h.content_other f fun i hi => hf i (by omega))
      full := by
        intro part hpart
        rcases List.mem_append.1 hpart with hpart | hpart
        · exact h.full part hpart
        · rwa [List.mem_singleton.1 hpart] }

/-- One line more, in the open file or, if it makes the file too large, before a new one. -/
theorem write (h : Rolling d₀ name rollSize w d closed current)
    (hfits : current.flatten.length ≤ rollSize.toNat) {line : Text}
    (hnum : (w.write d line).2.files.opened.length < d₀.files.opened.length + 2 ^ 32) :
    ∃ closed' current',
      Rolling d₀ name rollSize (w.write d line).1 (w.write d line).2 closed' current' ∧
      current'.flatten.length ≤ rollSize.toNat ∧
      closed'.flatten ++ current' = closed.flatten ++ current ++ [line] := by
  have hopened := congrArg List.length h.opened
  simp only [List.length_append, List.length_map, List.length_range] at hopened
  have hlen : (current ++ [line]).flatten.length = current.flatten.length + line.length := by simp
  rw [write_eq h.os, h.bytesWritten, h.rollSize_eq] at hnum ⊢
  by_cases hroll : (rollSize.toNat : ℤ) < current.flatten.length + line.length
  · rw [if_pos hroll] at hnum ⊢
    have hnum' : d.files.opened.length + 1 < d₀.files.opened.length + 2 ^ 32 := by
      simpa [rollFile, worldAfter] using hnum
    refine ⟨closed ++ [current ++ [line]], [], ?_, Nat.zero_le _, by simp⟩
    refine (h.append (by omega) line).roll (by omega) ⟨by omega, ?_⟩
    rwa [List.dropLast_concat]
  · rw [if_neg hroll] at hnum ⊢
    have hnum' : d.files.opened.length < d₀.files.opened.length + 2 ^ 32 := hnum
    exact ⟨closed, current ++ [line], h.append (by omega) line, by omega, by simp⟩

end Rolling

/-- No step forgets a name. -/
theorem opened_write (w : FileWriter) (d : World) (line : Text) :
    d.files.opened <+: (w.write d line).2.files.opened := by
  cases hos : w.os with
  | none => simp [write, hos]
  | some os =>
    rw [write_eq hos]
    split
    · exact List.prefix_append _ _
    · exact List.prefix_rfl

theorem writeAll_concat (w : FileWriter) (d : World) (lines : List Text) (line : Text) :
    w.writeAll d (lines ++ [line]) =
      (w.writeAll d lines).1.write (w.writeAll d lines).2 line := by
  simp [writeAll]

theorem Rolling.writeAll {d₀ d : World} {name : Text} {rollSize : BitVec 32} {w : FileWriter}
    (h : Rolling d₀ name rollSize w d [] []) (lines : List Text)
    (hnum : (w.writeAll d lines).2.files.opened.length < d₀.files.opened.length + 2 ^ 32) :
    ∃ closed current,
      Rolling d₀ name rollSize (w.writeAll d lines).1 (w.writeAll d lines).2 closed current ∧
      current.flatten.length ≤ rollSize.toNat ∧ closed.flatten ++ current = lines := by
  induction lines using List.reverseRecOn with
  | nil => exact ⟨[], [], h, Nat.zero_le _, rfl⟩
  | append_singleton lines line ih =>
    rw [writeAll_concat] at hnum ⊢
    have hle := (opened_write (w.writeAll d lines).1 (w.writeAll d lines).2 line).length_le
    obtain ⟨closed, current, h₁, hfits, hlines⟩ := ih (lt_of_le_of_lt hle hnum)
    obtain ⟨closed', current', h₂, hfits', hlines'⟩ := h₁.write hfits hnum
    exact ⟨closed', current', h₂, hfits', by rw [hlines', hlines]⟩

/-- The lines given to one writer are partitioned among the files numbered 1, 2, 3, …: each file
holds the texts of a part of the lines, the parts are consecutive, every file but the last exceeds
the roll size with its last line and not before, and the last one does not exceed it. -/
theorem rolling_partitions (logDirectory logFile : Text) (rollSize : BitVec 32)
    (terminalOutput : Bool) (d₀ : World) (lines : List Text) {w w' : FileWriter} {d d' : World}
    (hnew : new logDirectory logFile rollSize terminalOutput d₀ = (w, d))
    (hwrite : w.writeAll d lines = (w', d'))
    (hnum : d'.files.opened.length < d₀.files.opened.length + 2 ^ 32) :
    ∃ closed current, closed.flatten ++ current = lines ∧
      d'.files.opened = d₀.files.opened ++
        (List.range (closed.length + 1)).map (nameOf (logDirectory ++ logFile)) ∧
      (∀ i part, (closed ++ [current])[i]? = some part →
        d'.files.content (nameOf (logDirectory ++ logFile) i) = some part.flatten) ∧
      (∀ f, (∀ i ≤ closed.length, f ≠ nameOf (logDirectory ++ logFile) i) →
        d'.files.content f = d₀.files.content f) ∧
      (∀ part ∈ closed, rollSize.toNat < part.flatten.length ∧
        part.dropLast.flatten.length ≤ rollSize.toNat) ∧
      current.flatten.length ≤ rollSize.toNat := by
  have hstart := Rolling.new d₀ logDirectory logFile rollSize terminalOutput
  rw [hnew] at hstart
  obtain ⟨closed, current, h, hfits, hlines⟩ := hstart.writeAll lines (by rwa [hwrite])
  rw [hwrite] at h
  refine ⟨closed, current, hlines, h.opened, fun i part hpart => ?_, h.content_other, h.full, hfits⟩
  rcases Nat.lt_or_ge i closed.length with hi | hi
  · rw [List.getElem?_append_left hi] at hpart
    exact h.content_closed i part hpart
  · rw [List.getElem?_append_right hi] at hpart
    obtain ⟨hlt, rfl⟩ := List.getElem?_eq_some_iff.1 hpart
    obtain rfl : i = closed.length := by
      rw [List.length_singleton] at hlt
      omega
    simpa using h.content_current

/-- Three lines and a roll size of three bytes: the second line fills the first file. -/
theorem rolling_partitions_three : ∃ (closed : List (List Text)) (current : List Text),
    closed.flatten ++ current = [[1, 2], [3, 4], [5]] ∧
      (∀ part ∈ closed, 3 < part.flatten.length ∧ part.dropLast.flatten.length ≤ 3) ∧
      current.flatten.length ≤ 3 := by
  obtain ⟨closed, current, hlines, -, -, -, hfull, hfits⟩ := rolling_partitions [] [] 3 false
    ⟨⟨fun _ => none, []⟩, []⟩ [[1, 2], [3, 4], [5]] rfl rfl (by decide)
  exact ⟨closed, current, hlines, hfull, hfits⟩

end FileWriter

end ZephyrLog
