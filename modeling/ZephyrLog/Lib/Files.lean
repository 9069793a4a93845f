import Mathlib.Data.List.Infix
import Mathlib.Data.List.Perm.Subperm
import Mathlib.Logic.Function.Basic
import ZephyrLog.Lib.Bytes

/-!
# Files and streams

A file system maps names to bytes.  Opening a name for writing empties the file, and every open
stream writes at its own position: over what is there, or behind the end, in which case the gap is
filled with zeros.  Two streams may be open on one name.  The names opened are kept as a history.

What was written stays in the files, each piece in a place of its own (`HoldsEach`), as long as only
spare files are opened and streams write at the end of their files.
-/

namespace ZephyrLog

/-- The bytes of a file after `bs` was written at position `i`. -/
def overwrite (content : List Byte) (i : ℕ) (bs : List Byte) : List Byte :=
  splice (content.rightpad i 0) i bs

theorem overwrite_of_le {content : List Byte} {i : ℕ} (h : content.length ≤ i) (bs : List Byte) :
    overwrite content i bs = content ++ List.replicate (i - content.length) 0 ++ bs := by
  have hlen : (content ++ List.replicate (i - content.length) (0 : Byte)).length = i := by
    rw [List.length_append, List.length_replicate]
    omega
  unfold overwrite splice List.rightpad
  rw [List.take_of_length_le hlen.le, List.drop_eq_nil_of_le (by omega), List.append_nil]

theorem overwrite_end (content bs : List Byte) :
    overwrite content content.length bs = content ++ bs := by
  rw [overwrite_of_le le_rfl, Nat.sub_self, List.replicate_zero, List.append_nil]

/-- The files, and the history of the names opened. -/
structure FileSystem (Name : Type) where
  /-- The bytes of each file; none where there is no file of that name. -/
  content : Name → Option (List Byte)
  /-- The names opened, in order. -/
  opened : List Name

/-- A stream that is open for writing. -/
structure Stream (Name : Type) where
  name : Name
  position : ℕ
  deriving DecidableEq, Repr

variable {Name : Type}

/-- The stream after writing `bs`. -/
def Stream.advance (os : Stream Name) (bs : List Byte) : Stream Name :=
  { os with position := os.position + bs.length }

variable [DecidableEq Name]

namespace FileSystem

/-- Opens a file for writing: it is created or truncated. -/
def openTrunc (fs : FileSystem Name) (name : Name) : FileSystem Name where
  content := Function.update fs.content name (some [])
  opened := fs.opened ++ [name]

/-- Writes at the position of a stream. -/
def write (fs : FileSystem Name) (os : Stream Name) (bs : List Byte) : FileSystem Name :=
  { fs with
    content := Function.update fs.content os.name
      (some (overwrite ((fs.content os.name).getD []) os.position bs)) }

variable {fs : FileSystem Name} {name f : Name} {os : Stream Name} {bs : List Byte}

@[simp] theorem opened_openTrunc : (fs.openTrunc name).opened = fs.opened ++ [name] := rfl

@[simp] theorem opened_write : (fs.write os bs).opened = fs.opened := rfl

@[simp] theorem content_openTrunc_self : (fs.openTrunc name).content name = some [] :=
  Function.update_self ..

theorem content_openTrunc (h : f ≠ name) : (fs.openTrunc name).content f = fs.content f :=
  Function.update_of_ne h _ _

theorem content_write (h : f ≠ os.name) : (fs.write os bs).content f = fs.content f :=
  Function.update_of_ne h _ _

theorem content_write_self {content : List Byte} (h : fs.content os.name = some content) :
    (fs.write os bs).content os.name = some (overwrite content os.position bs) := by
  unfold write
  rw [h]
  exact Function.update_self ..

/-! ## What stays in the files -/

/-- Bytes at a place in a file. -/
structure Span (Name : Type) where
  name : Name
  start : ℕ
  bytes : List Byte

/-- The two places have no byte in common. -/
def Span.Apart (p q : Span Name) : Prop :=
  p.name = q.name → p.start + p.bytes.length ≤ q.start ∨ q.start + q.bytes.length ≤ p.start

/-- The bytes stand at this place in a file that was opened. -/
def HoldsAt (fs : FileSystem Name) (p : Span Name) : Prop :=
  ∃ content, p.name ∈ fs.opened ∧ fs.content p.name = some content ∧
    ∃ before, before.length = p.start ∧ before ++ p.bytes <+: content

/-- The bytes stand unbroken in a file that was opened. -/
def Holds (fs : FileSystem Name) (bs : List Byte) : Prop :=
  ∃ name content, name ∈ fs.opened ∧ fs.content name = some content ∧ bs <:+: content

/-- Each of the texts stands unbroken in a file that was opened, at a place of its own. -/
def HoldsEach (fs : FileSystem Name) (texts : List (List Byte)) : Prop :=
  ∃ spans : List (Span Name), (spans.map Span.bytes).Perm texts ∧ spans.Pairwise Span.Apart ∧
    ∀ p ∈ spans, fs.HoldsAt p

/-- Nothing is in the file that was written since it was opened first. -/
def Spare (fs : FileSystem Name) (name : Name) : Prop :=
  name ∈ fs.opened → fs.content name = some []

/-- The stream stands at the end of its file or behind it. -/
def AtEnd (fs : FileSystem Name) (os : Stream Name) : Prop :=
  ((fs.content os.name).getD []).length ≤ os.position

instance (fs : FileSystem Name) (name : Name) : Decidable (fs.Spare name) :=
  inferInstanceAs (Decidable (name ∈ fs.opened → _))

instance (fs : FileSystem Name) (os : Stream Name) : Decidable (fs.AtEnd os) :=
  inferInstanceAs (Decidable (_ ≤ _))

variable {p : Span Name} {texts texts' : List (List Byte)}

omit [DecidableEq Name] in
theorem HoldsAt.holds (h : fs.HoldsAt p) : fs.Holds p.bytes := by
  obtain ⟨content, hopened, hcontent, before, -, hbefore⟩ := h
  exact ⟨p.name, content, hopened, hcontent,
    (List.suffix_append before p.bytes).isInfix.trans hbefore.isInfix⟩

theorem HoldsAt.openTrunc (h : fs.HoldsAt p) (hspare : fs.Spare name) :
    (fs.openTrunc name).HoldsAt p := by
  obtain ⟨content, hopened, hcontent, hbytes⟩ := h
  refine ⟨content, List.mem_append_left _ hopened, ?_, hbytes⟩
  by_cases hname : p.name = name
  · rw [hname, content_openTrunc_self, ← hspare (hname ▸ hopened), ← hcontent, hname]
  · rw [content_openTrunc hname, hcontent]

theorem HoldsAt.write (h : fs.HoldsAt p) (hend : fs.AtEnd os) : (fs.write os bs).HoldsAt p := by
  obtain ⟨content, hopened, hcontent, before, hstart, hbefore⟩ := h
  by_cases hname : p.name = os.name
  · have hos : fs.content os.name = some content := hname ▸ hcontent
    have hlen : content.length ≤ os.position := by
      unfold AtEnd at hend
      rwa [hos] at hend
    refine ⟨overwrite content os.position bs, hopened, ?_, before, hstart, hbefore.trans ?_⟩
    · rw [hname]
      exact content_write_self hos
    · rw [overwrite_of_le hlen, List.append_assoc]
      exact List.prefix_append _ _
  · exact ⟨content, hopened, (content_write hname).trans hcontent, before, hstart, hbefore⟩

omit [DecidableEq Name] in
/-- What is written at the end of a file is behind all that the file holds. -/
theorem HoldsAt.apart_of_atEnd (h : fs.HoldsAt p) (hend : fs.AtEnd os) :
    Span.Apart ⟨os.name, os.position, bs⟩ p := by
  intro hname
  obtain ⟨content, -, hcontent, before, hstart, hbefore⟩ := h
  unfold AtEnd at hend
  have hos : fs.content os.name = some content := by
    rw [show os.name = p.name from hname, hcontent]
  rw [hos, Option.getD_some] at hend
  have hlen := hbefore.length_le
  rw [List.length_append, hstart] at hlen
  exact .inr (hlen.trans hend)

theorem holdsAt_write (hopened : os.name ∈ fs.opened) (hend : fs.AtEnd os) :
    (fs.write os bs).HoldsAt ⟨os.name, os.position, bs⟩ := by
  let content := (fs.content os.name).getD []
  refine ⟨_, hopened, Function.update_self ..,
    content ++ List.replicate (os.position - content.length) 0, ?_, ?_⟩
  · rw [List.length_append, List.length_replicate]
    exact Nat.add_sub_cancel' hend
  · rw [overwrite_of_le hend]

namespace HoldsEach

omit [DecidableEq Name] in
theorem nil (fs : FileSystem Name) : fs.HoldsEach [] :=
  ⟨[], .refl _, .nil, fun _ hp => by cases hp⟩

omit [DecidableEq Name] in
theorem subperm (h : fs.HoldsEach texts) (hs : List.Subperm texts' texts) :
    fs.HoldsEach texts' := by
  obtain ⟨spans, hperm, hapart, hholds⟩ := h
  obtain ⟨texts₀, hperm₀, hsub⟩ := List.Subperm.trans hs hperm.symm.subperm
  obtain ⟨spans₀, hspans₀, rfl⟩ := List.sublist_map_iff.1 hsub
  exact ⟨spans₀, hperm₀, hapart.sublist hspans₀, fun p hp => hholds p (hspans₀.subset hp)⟩

omit [DecidableEq Name] in
theorem holds (h : fs.HoldsEach texts) (hbs : bs ∈ texts) : fs.Holds bs := by
  obtain ⟨spans, hperm, -, hholds⟩ := h
  obtain ⟨p, hp, rfl⟩ := List.mem_map.1 (hperm.mem_iff.2 hbs)
  exact (hholds p hp).holds

theorem openTrunc (h : fs.HoldsEach texts) (hspare : fs.Spare name) :
    (fs.openTrunc name).HoldsEach texts := by
  obtain ⟨spans, hperm, hapart, hholds⟩ := h
  exact ⟨spans, hperm, hapart, fun p hp => (hholds p hp).openTrunc hspare⟩

/-- What is written at the end of a file is added to what the files hold. -/
theorem write (h : fs.HoldsEach texts) (hopened : os.name ∈ fs.opened) (hend : fs.AtEnd os) :
    (fs.write os bs).HoldsEach (bs :: texts) := by
  obtain ⟨spans, hperm, hapart, hholds⟩ := h
  refine ⟨⟨os.name, os.position, bs⟩ :: spans, hperm.cons bs, hapart.cons fun p hp => ?_, ?_⟩
  · exact (hholds p hp).apart_of_atEnd hend
  · rintro p (_ | ⟨_, hp⟩)
    · exact holdsAt_write hopened hend
    · exact (hholds p hp).write hend

end HoldsEach

/-! ## Where streams stand -/

variable {os' : Stream Name}

theorem atEnd_openTrunc : (fs.openTrunc name).AtEnd ⟨name, 0⟩ := by
  unfold AtEnd
  rw [content_openTrunc_self]
  exact le_rfl

theorem AtEnd.openTrunc (h : fs.AtEnd os) (hne : os.name ≠ name) :
    (fs.openTrunc name).AtEnd os := by
  unfold AtEnd
  rwa [content_openTrunc hne]

theorem AtEnd.write (h : fs.AtEnd os) (hne : os.name ≠ os'.name) : (fs.write os' bs).AtEnd os := by
  unfold AtEnd
  rwa [content_write hne]

/-- A stream that writes at the end of its file stays there. -/
theorem AtEnd.advance (h : fs.AtEnd os) : (fs.write os bs).AtEnd (os.advance bs) := by
  unfold AtEnd at h ⊢
  have hcontent : (fs.write os bs).content (os.advance bs).name =
      some (overwrite ((fs.content os.name).getD []) os.position bs) := Function.update_self ..
  rw [hcontent, Option.getD_some, overwrite_of_le h]
  simp only [List.length_append, List.length_replicate, Stream.advance]
  omega

end FileSystem

end ZephyrLog
