import ZephyrLog.Logging.Persistence

/-!
# Loggers with files of their own

If no file is opened twice, every live writer has a file for itself and stands at its end
(`Separate`), so all steps are harmless.
-/

namespace ZephyrLog

namespace Logging

variable {T : Type} {s s' : System T} {l : Ref} {label : Label T}

/-- The step opens no file that was opened before. -/
def OpensNew (s : System T) : Label T → Prop
  | .makeDefault _ c => FileWriter.firstName c.logDirectory c.logFileName ∉ s.world.files.opened
  | .create _ _ c => FileWriter.firstName c.logDirectory c.logFileName ∉ s.world.files.opened
  | .work l => ∀ line ∈ (s.loggers l).impl.pending, (s.loggers l).writer.Rolls line →
    (s.loggers l).writer.nextName ∉ s.world.files.opened
  | _ => True

/-- Each live writer stands at the end of a file that no other live writer has open. -/
structure Separate (s : System T) : Prop where
  isOpen : ∀ l, s.Live l → (s.loggers l).writer.IsOpen s.world.files
  atEnd : ∀ l, s.Live l → ∀ os ∈ (s.loggers l).writer.os, s.world.files.AtEnd os
  apart : ∀ l l', s.Live l → s.Live l' → l ≠ l' →
    ∀ os ∈ (s.loggers l).writer.os, ∀ os' ∈ (s.loggers l').writer.os, os.name ≠ os'.name

namespace Separate

theorem init (content : Text → Option (List Byte)) : Separate (System.init content : System T) where
  isOpen := fun l hl => absurd hl.1 (Nat.not_lt_zero l)
  atEnd := fun l hl => absurd hl.1 (Nat.not_lt_zero l)
  apart := fun l _ hl => absurd hl.1 (Nat.not_lt_zero l)

theorem same (h : Separate s) (hs : SameWriters s s') : Separate s' where
  isOpen := by
    intro l hl
    rw [hs.world, hs.writer l hl]
    exact h.isOpen l (hs.live l hl)
  atEnd := by
    intro l hl
    rw [hs.world, hs.writer l hl]
    exact h.atEnd l (hs.live l hl)
  apart := by
    intro l l' hl hl'
    rw [hs.writer l hl, hs.writer l' hl']
    exact h.apart l l' (hs.live l hl) (hs.live l' hl')

/-- The file of a live writer was opened. -/
theorem opened (h : Separate s) (hl : s.Live l) {os : Stream Text}
    (hos : os ∈ (s.loggers l).writer.os) : os.name ∈ s.world.files.opened := by
  obtain ⟨os', hos', -, hmem⟩ := h.isOpen l hl
  cases hos.symm.trans hos'
  exact hmem

/-- The writer of `l` has changed; it has a file for itself. -/
theorem change (h : Separate s) (l : Ref) (hopened : s.world.files.opened <+: s'.world.files.opened)
    (hlive : ∀ l', l' ≠ l → s'.Live l' → s.Live l')
    (hother : ∀ l', l' ≠ l → (s'.loggers l').writer = (s.loggers l').writer)
    (hisOpen : (s'.loggers l).writer.IsOpen s'.world.files)
    (hatEnd : ∀ os ∈ (s'.loggers l).writer.os, s'.world.files.AtEnd os)
    (hothers : ∀ l', l' ≠ l → s.Live l' → ∀ os' ∈ (s.loggers l').writer.os,
      s'.world.files.AtEnd os' ∧ ∀ os ∈ (s'.loggers l).writer.os, os'.name ≠ os.name) :
    Separate s' := by
  refine ⟨fun l' hl' => ?_, fun l' hl' os' hos' => ?_, fun l₁ l₂ h₁ h₂ hne os₁ hos₁ os₂ hos₂ => ?_⟩
  · by_cases heq : l' = l
    · subst heq
      exact hisOpen
    · rw [hother l' heq]
      exact (h.isOpen l' (hlive l' heq hl')).mono hopened
  · by_cases heq : l' = l
    · subst heq
      exact hatEnd os' hos'
    · rw [hother l' heq] at hos'
      exact (hothers l' heq (hlive l' heq hl') os' hos').1
  · by_cases heq₁ : l₁ = l
    · subst heq₁
      rw [hother l₂ hne.symm] at hos₂
      exact ((hothers l₂ hne.symm (hlive l₂ hne.symm h₂) os₂ hos₂).2 os₁ hos₁).symm
    · rw [hother l₁ heq₁] at hos₁
      have hold₁ := hlive l₁ heq₁ h₁
      by_cases heq₂ : l₂ = l
      · subst heq₂
        exact (hothers l₁ heq₁ hold₁ os₁ hos₁).2 os₂ hos₂
      · rw [hother l₂ heq₂] at hos₂
        exact h.apart l₁ l₂ hold₁ (hlive l₂ heq₂ h₂) hne os₁ hos₁ os₂ hos₂

theorem make (h : Separate s) (name : Text) (c : Config)
    (hnew : FileWriter.firstName c.logDirectory c.logFileName ∉ s.world.files.opened) :
    Separate (s.make name c) := by
  have hwriter : ((s.make name c).loggers s.allocated).writer =
      (FileWriter.new c.logDirectory c.logFileName c.rollSize c.terminalOutput s.world).1 := by
    simp [System.make]
  refine h.change s.allocated (List.prefix_append _ _) (fun l hne hl => ?_) (fun l hne => ?_) ?_ ?_
    fun l hne hl os hos => ?_
  · obtain ⟨hlt, hlive⟩ := hl
    rw [System.make_loggers hne] at hlive
    exact ⟨Nat.lt_of_le_of_ne (Nat.le_of_lt_succ hlt) hne, hlive⟩
  · rw [System.make_loggers hne]
  · rw [hwriter]
    exact FileWriter.new_isOpen _ _ _ _ _
  · intro os hos
    rw [hwriter] at hos
    obtain rfl := Option.some.inj hos
    exact FileSystem.atEnd_openTrunc
  · have hname : os.name ≠ FileWriter.firstName c.logDirectory c.logFileName := by
      intro heq
      exact hnew (heq ▸ h.opened hl hos)
    refine ⟨(h.atEnd l hl os hos).openTrunc hname, fun os' hos' => ?_⟩
    rw [hwriter] at hos'
    obtain rfl := Option.some.inj hos'
    exact hname

theorem write [DecidableEq T] (h : Separate s) {m : Impl T} {line : Text} (hl : s.Live l)
    (hnew : (s.loggers l).writer.Rolls line →
      (s.loggers l).writer.nextName ∉ s.world.files.opened) :
    Separate ((s.setImpl l m).write l line) := by
  obtain ⟨os, hos, -⟩ := h.isOpen l hl
  have hwriter : ((s.setImpl l m).loggers l).writer = (s.loggers l).writer := setImpl_writer l
  have hworld : ((s.setImpl l m).write l line).world =
      ((s.loggers l).writer.write s.world line).2 := by
    rw [write_world, hwriter]
    rfl
  have hself : (((s.setImpl l m).write l line).loggers l).writer =
      ((s.loggers l).writer.write s.world line).1 := by
    rw [write_writer, hwriter]
    rfl
  have hatEnd := FileWriter.write_atEnd hos (h.atEnd l hl os hos) line
  refine h.change l ?_ (fun l' hne hl' => ?_) (fun l' hne => ?_) ?_ ?_ fun l' hne hl' os' hos' => ?_
  · rw [hworld]
    exact FileWriter.opened_write _ _ _
  · obtain ⟨hlt, hlive⟩ := hl'
    rw [write_impl, setImpl_impl, if_neg hne] at hlive
    exact ⟨hlt, hlive⟩
  · rw [write_writer_of_ne hne, setImpl_writer]
  · rw [hself, hworld]
    exact FileWriter.write_isOpen (h.isOpen l hl)
  · rw [hself, hworld]
    exact fun os' hos' => (hatEnd os' hos').1
  · have hname : os'.name ≠ os.name := h.apart l' l hl' hl hne os' hos' os hos
    have hnext (hrolls : (s.loggers l).writer.Rolls line) :
        os'.name ≠ (s.loggers l).writer.nextName := by
      intro heq
      exact hnew hrolls (heq ▸ h.opened hl' hos')
    rw [hself, hworld]
    refine ⟨FileWriter.write_atEnd_of_ne hos (h.atEnd l' hl' os' hos') hname hnext,
      fun os₁ hos₁ => ?_⟩
    rcases (hatEnd os₁ hos₁).2 with heq | ⟨hrolls, heq⟩
    · rw [heq]
      exact hname
    · rw [heq]
      exact hnext hrolls

variable [DecidableEq T]

theorem step (h : Separate s) (hg : OpensNew s label) (hs : Writing s label s') : Separate s' := by
  cases hs with
  | same hsame => exact h.same hsame
  | makeDefault t c hsame => exact (h.make (ascii "default") c hg).same hsame
  | create t name c hsame => exact (h.make name c hg).same hsame
  | write l m line hl hm hp => exact h.write hl (hg line hp)

/-- A step that opens no file twice is harmless. -/
theorem harmless (h : Separate s) (hshared : Shared s) (hg : OpensNew s label)
    (hs : Stepped s label s') : Harmless s label := by
  cases hs with
  | makeDefault t c hi => exact fun hmem => absurd hmem hg
  | create t name c hi => exact fun hmem => absurd hmem hg
  | work l m hl hm hp =>
    intro line hline
    cases hp.symm.trans hline
  | write l m line hl hm hp =>
    intro line' hline'
    have hlive : s.Live l := ⟨hl, Impl.not_joined_of_work hm fun a ha ho =>
      AsyncLogger.ended_of_joined (hshared.runs l a ha) ho⟩
    exact ⟨h.atEnd l hlive, fun hrolls hmem => absurd hmem (hg line' hline' hrolls)⟩
  | _ => exact trivial

end Separate

/-- In a run that opens no file twice all steps are harmless. -/
theorem harmless_of_opensNew [DecidableEq T] [Fintype T] {content : Text → Option (List Byte)}
    (h : (machine T content).Reachable OpensNew s) : (machine T content).Reachable Harmless s := by
  have hboth : (machine T content).Reachable Harmless s ∧ Separate s := by
    induction h with
    | refl => exact ⟨.refl, .init content⟩
    | tail label hreach hg hs ih =>
      obtain ⟨hharmless, hseparate⟩ := ih
      refine ⟨.tail label hharmless ?_ hs, hseparate.step hg (.of_step hreach hs)⟩
      exact hseparate.harmless (.of_reachable hreach) hg (.of_step hs)
  exact hboth.1

end Logging

end ZephyrLog
