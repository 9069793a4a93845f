import ZephyrLog.AsyncLogger.Safe.Shutdown
import ZephyrLog.Pipeline.Delivery

/-!
# The files of a Safe logger

The lines written are the first ones in the order of the queue, so these are what the files and the
terminal hold at any moment, and the destructor leaves the lines of all calls of `add` there.
-/

namespace ZephyrLog

namespace Pipeline

namespace Safe

open AsyncLogger (adding inTurn)
open QueueBuffer (Push)

/-- A Safe logger with its file writer. -/
abbrev System (T : Type) (fmt : Format) :=
  Pipeline.System (QueueBuffer.System T (PrintedLine fmt)) (Push T (PrintedLine fmt))

/-- A Safe logger with its file writer and any number of threads that call `add`. -/
def machine (T : Type) [DecidableEq T] (fmt : Format) (config : Config) (d : World) :
    Machine (System T fmt) (AsyncLogger.Label T (PrintedLine fmt)) :=
  Pipeline.machine .init config d

variable {T : Type} [DecidableEq T] [Fintype T] {fmt : Format} {config : Config} {d₀ : World}
  {s s' : System T fmt}

omit [Fintype T] in
theorem logger_reaches (h : (machine T fmt config d₀).Reaches AddsReturned s s') :
    (AsyncLogger.Safe.machine T (PrintedLine fmt)).Reaches AsyncLogger.AddsReturned
      s.logger s'.logger :=
  Pipeline.logger_reaches (fun _ _ hg => hg) h

/-- The lines given to the writer are the first ones claimed. -/
theorem delivered_take (hcard : Fintype.card T + Buffer.size < 2 ^ 32)
    (h : (machine T fmt config d₀).Reachable AddsReturned s) :
    (s.writer, s.world) =
      (FileWriter.new config.logDirectory config.logFileName config.rollSize
        config.terminalOutput d₀).1.writeAll
      (FileWriter.new config.logDirectory config.logFileName config.rollSize
        config.terminalOutput d₀).2
      (texts (s.logger.buffer.claims.take s.logger.written.length)) := by
  obtain ⟨pushes, hwritten, hwriter⟩ := Delivered.of_reachable h
  have htake := AsyncLogger.Safe.written_eq_take hcard (logger_reachable h)
  rwa [← List.map_injective_iff.2 Cell.line_injective (hwritten.symm.trans htake)]

/-- What the files hold at any moment: if every `add` returns before the destructor begins, then in
every reachable state the lines written are the first ones in the order of the queue; the files
numbered 1, 2, 3, … hold their texts, cut into parts, as long as fewer than `2 ^ 32` files have been
opened; the terminal has the same; and the worker never comes to `FileWriter::write` with anything
but such a line.  When the worker has ended, they are the lines of all calls of `add`. -/
theorem files_hold_lines (hcard : Fintype.card T + Buffer.size < 2 ^ 32)
    (h : (machine T fmt config d₀).Reachable AddsReturned s) :
    s.logger.written = (s.logger.buffer.claims.take s.logger.written.length).map Cell.line ∧
    (s.world.files.opened.length < d₀.files.opened.length + 2 ^ 32 →
      ∃ closed current, FileWriter.Rolling d₀ (config.logDirectory ++ config.logFileName)
          config.rollSize s.writer s.world closed current ∧
        current.flatten.length ≤ config.rollSize.toNat ∧
        closed.flatten ++ current =
          texts (s.logger.buffer.claims.take s.logger.written.length)) ∧
    (s.world.cout = d₀.cout ++ if config.terminalOutput then
      (texts (s.logger.buffer.claims.take s.logger.written.length)).flatten else []) ∧
    s.write.isSome ∧
    (s.logger.worker = .ended → s.logger.written.length = s.logger.buffer.claims.length ∧
      ∀ p, p ∈ s.logger.buffer.claims ↔ p ∈ s.logger.buffer.begun) := by
  obtain ⟨hfiles, hcout⟩ := rolling_of_writeAll (delivered_take hcard h)
  refine ⟨AsyncLogger.Safe.written_eq_take hcard (logger_reachable h), hfiles, hcout,
    write_isSome (QueueBuffer.lawful hcard) h, fun hend => ?_⟩
  obtain ⟨-, hwritten, hclaims⟩ :=
    AsyncLogger.Safe.written_of_ended hcard (logger_reachable h) hend
  exact ⟨by rw [hwritten, List.length_map], hclaims⟩

/-- The lines of two threads, which the worker writes to the files and to the terminal. -/
theorem files_hold_lines_two : ∃ (s : System Bool mute) (closed : List (List Text))
    (current : List Text),
    s.logger.written = [.line ⟨false, 0, letterLine 98⟩, .line ⟨true, 1, letterLine 99⟩] ∧
      FileWriter.Rolling emptyWorld (ascii "d/log") 10 s.writer s.world closed current ∧
      closed.flatten ++ current = [(letterLine 98).text, (letterLine 99).text] ∧
      s.world.cout = (letterLine 98).text ++ (letterLine 99).text := by
  obtain ⟨x, hx, hfin⟩ := Option.map_eq_some_iff.1 (show
    (((AsyncLogger.Safe.machine Bool (PrintedLine mute)).restrict AsyncLogger.AddsReturned).exec
      (.new .init)
      (adding 5 false (letterLine 98) ++ .own :: adding 5 true (letterLine 99) ++
        List.replicate 14 .work)).map (fun x => (x.written, x.buffer.claims)) =
      some ([.line ⟨false, 0, letterLine 98⟩, .line ⟨true, 1, letterLine 99⟩],
        [⟨false, 0, letterLine 98⟩, ⟨true, 1, letterLine 99⟩]) from rfl)
  obtain ⟨hwritten, hclaims⟩ := Prod.mk.inj hfin
  obtain ⟨s, h, rfl⟩ := exists_reachable (QueueBuffer.lawful (by decide)) toDirectory emptyWorld
    (fun _ _ hg => hg) (.of_restrict hx)
  obtain ⟨-, hfiles, hcout, -⟩ := files_hold_lines (by decide) h
  obtain ⟨closed, current, hrolling, -, hlines⟩ := hfiles (by
    have hle := (Delivered.of_reachable h).opened_length
    rw [hwritten] at hle
    exact lt_of_le_of_lt hle (show 0 + 1 + 2 < 0 + 2 ^ 32 by decide))
  rw [hwritten, hclaims] at hlines hcout
  refine ⟨s, closed, current, hwritten, hrolling, hlines, hcout.trans ?_⟩
  simp [emptyWorld, toDirectory, texts, Pushed.line]

/-- The destructor of a Safe logger returns with everything in the files: if every `add` has
returned when it begins, then under every schedule that gives worker and owner their turn again and
again the owner joins the worker, and then, if fewer than `2 ^ 32` files have been opened, the files
numbered 1, 2, 3, … hold, in this order, the texts of the lines of all calls of `add`, in the order
of the queue. -/
theorem destructor_leaves_files (hcard : Fintype.card T + Buffer.size < 2 ^ 32)
    (h : (machine T fmt config d₀).Reachable AddsReturned s)
    (ho : s.logger.owner.Destroying) {σ : ℕ → AsyncLogger.Label T (PrintedLine fmt)}
    (hfair : Machine.Fair σ fun l => l = .work ∨ l = .own)
    (hguard : ∀ n, AddsReturned ((machine T fmt config d₀).run s σ n) (σ n)) :
    ∃ n s', (machine T fmt config d₀).run s σ n = s' ∧ s'.logger.owner = .joined ∧
      (∀ p, p ∈ s'.logger.buffer.claims ↔ p ∈ s.logger.buffer.begun) ∧
      (s'.world.files.opened.length < d₀.files.opened.length + 2 ^ 32 →
        ∃ closed current, closed.flatten ++ current = texts s'.logger.buffer.claims ∧
          ∀ i part, (closed ++ [current])[i]? = some part →
            s'.world.files.content
              (FileWriter.nameOf (config.logDirectory ++ config.logFileName) i) =
                some part.flatten) := by
  obtain ⟨n, howner, hworker⟩ := exists_joined (QueueBuffer.lawful hcard) h ho hfair hguard
  have hr := Machine.run_reaches hguard n
  obtain ⟨-, hwritten, hclaims⟩ :=
    AsyncLogger.Safe.written_of_ended hcard (logger_reachable (h.trans hr)) hworker
  have hbegun := AsyncLogger.Safe.begun_of_destroying hcard (logger_reachable h) ho
    (logger_reaches hr)
  refine ⟨n, _, rfl, howner, fun p => by rw [hclaims, hbegun], fun hnum => ?_⟩
  obtain ⟨closed, current, hrolling, -, hlines⟩ :=
    (rolling_of_writeAll (delivered_take hcard (h.trans hr))).1 hnum
  refine ⟨closed, current, ?_, fun i part hpart => hrolling.content hpart⟩
  change closed.flatten ++ current = texts (List.take _ _) at hlines
  rw [hlines, hwritten, List.length_map, List.take_length]

/-- Two lines, and a destructor that begins before the worker has seen `READY`. -/
theorem destructor_leaves_files_two : ∃ (s s' : System Bool mute) (closed : List (List Text))
    (current : List Text),
    s.logger.worker = .waitInit ∧ s'.logger.owner = .joined ∧
      (closed.flatten ++ current).Perm [(letterLine 98).text, (letterLine 99).text] ∧
      ∀ i part, (closed ++ [current])[i]? = some part →
        s'.world.files.content (FileWriter.nameOf (ascii "d/log") i) = some part.flatten := by
  obtain ⟨x, hx, hfin⟩ := Option.map_eq_some_iff.1 (show
    (((AsyncLogger.Safe.machine Bool (PrintedLine mute)).restrict AsyncLogger.AddsReturned).exec
      (.new .init)
      (adding 5 false (letterLine 98) ++ .own :: adding 5 true (letterLine 99) ++
        [.destroy])).map (fun x => (x.owner, x.worker, x.buffer.begun)) =
      some (.destroying, .waitInit, [⟨false, 0, letterLine 98⟩, ⟨true, 1, letterLine 99⟩]) from rfl)
  simp only [Prod.mk.injEq] at hfin
  obtain ⟨howner, hworker, hbegun⟩ := hfin
  obtain ⟨s, h, rfl⟩ := exists_reachable (QueueBuffer.lawful (by decide)) toDirectory emptyWorld
    (fun _ _ hg => hg) (.of_restrict hx)
  have hguard (n : ℕ) : AddsReturned
      ((machine Bool mute toDirectory emptyWorld).run s (inTurn _ _) n)
      (inTurn Bool (PrintedLine mute) n) := AsyncLogger.addsReturned_inTurn _ n
  obtain ⟨n, s', hs', hjoined, hmem, hfiles⟩ := destructor_leaves_files (by decide) h
    (by rw [howner]; trivial) (AsyncLogger.fair_inTurn _ _) hguard
  have h' := h.trans (hs' ▸ Machine.run_reaches hguard n)
  have hp := AsyncLogger.Safe.protocol (by decide) (logger_reachable h')
  have hperm : s'.logger.buffer.claims.Perm [⟨false, 0, letterLine 98⟩, ⟨true, 1, letterLine 99⟩] :=
    (List.perm_ext_iff_of_nodup hp.history.nodup (by simp)).2 fun p => by rw [hmem, hbegun]
  obtain ⟨closed, current, hlines, hparts⟩ := hfiles (by
    have hle := (Delivered.of_reachable h').opened_length
    have htake := congrArg List.length
      (AsyncLogger.Safe.written_eq_take (by decide) (logger_reachable h'))
    rw [List.length_map, List.length_take, hperm.length_eq] at htake
    have htwo : s'.logger.written.length ≤ 2 := htake ▸ min_le_right _ _
    exact lt_of_le_of_lt (hle.trans (Nat.add_le_add_left htwo _)) (by decide))
  refine ⟨s, s', closed, current, hworker, hjoined, ?_, hparts⟩
  rw [hlines]
  exact hperm.map _

end Safe

end Pipeline

end ZephyrLog
