import ZephyrLog.AsyncLogger.Quick.Shutdown
import ZephyrLog.Pipeline.Delivery

/-!
# The files of a Quick logger

A ring that is overrun loses lines, but what comes to the files are always lines that were added,
each at most once and whole; and if the ring is never overrun, the destructor leaves all of them
there in the order of their claims.
-/

namespace ZephyrLog

namespace Pipeline

namespace Quick

open AsyncLogger (inTurn)
open AsyncLogger.Quick (addingTwo)

/-- A Quick logger with its file writer. -/
abbrev System (T : Type) (fmt : Format) :=
  Pipeline.System (RingBuffer.Locked.System T (PrintedLine fmt)) (Entry (PrintedLine fmt))

/-- A Quick logger with its file writer and any number of threads that call `add`. -/
def machine (T : Type) [DecidableEq T] (fmt : Format) (bufferSize : ℕ) (config : Config)
    (d : World) : Machine (System T fmt) (AsyncLogger.Label T (PrintedLine fmt)) :=
  Pipeline.machine (.init bufferSize) config d

variable {T : Type} [DecidableEq T] {fmt : Format} {N : ℕ} {config : Config} {d₀ : World}
  {s s' : System T fmt}

/-- Every `add` returns before the destructor begins, and finds room in the ring. -/
def Careful (bufferSize : ℕ) (s : System T fmt) (l : AsyncLogger.Label T (PrintedLine fmt)) :
    Prop :=
  AsyncLogger.Quick.Careful bufferSize s.logger l

theorem logger_reaches (h : (machine T fmt N config d₀).Reaches AddsReturned s s') :
    (AsyncLogger.Quick.machine T (PrintedLine fmt) N).Reaches AsyncLogger.AddsReturned
      s.logger s'.logger :=
  Pipeline.logger_reaches (fun _ _ hg => hg) h

/-- The logger runs carefully if the pipeline does. -/
theorem logger_careful (h : (machine T fmt N config d₀).Reachable (Careful N) s) :
    (AsyncLogger.Quick.machine T (PrintedLine fmt) N).Reachable (AsyncLogger.Quick.Careful N)
      s.logger := by
  have hr : (AsyncLogger.Quick.machine T (PrintedLine fmt) N).Reaches
      (AsyncLogger.Quick.Careful N)
      (Pipeline.System.init (.init N) config d₀ : System T fmt).logger s.logger :=
    Pipeline.logger_reaches (fun _ _ hg => hg) h
  exact hr

/-- The lines that the worker has popped are lines that were added, each once. -/
theorem popped_distinct (hN : 0 < N) (h : (machine T fmt N config d₀).Reachable AddsReturned s) :
    s.logger.buffer.popped.Nodup ∧
      ∀ c ∈ s.logger.buffer.popped, ∃ e ∈ s.logger.buffer.entries, c = .line e :=
  RingBuffer.Locked.popped_distinct hN (AsyncLogger.Quick.ring_reaches (logger_reachable h))

/-- No more lines are written than have been added. -/
theorem written_length_le (hN : 0 < N)
    (h : (machine T fmt N config d₀).Reachable AddsReturned s) :
    s.logger.written.length ≤ s.logger.buffer.entries.length := by
  have hlogger := logger_reachable h
  exact (AsyncLogger.Quick.working hN hlogger).written_prefix_popped.length_le.trans
    ((RingBuffer.Locked.lawful hN).popped_length_le (AsyncLogger.buffer_reaches hlogger))

/-- What the files hold at any moment in the Quick mode, however often the ring is overrun: if every
`add` returns before the destructor begins, then in every reachable state the lines written are
lines that were added, none of them twice; the files numbered 1, 2, 3, … hold their texts, cut into
parts, as long as fewer than `2 ^ 32` files have been opened; the terminal has the same; and the
worker never comes to `FileWriter::write` with anything but such a line. -/
theorem ring_files_hold_lines (hN : 0 < N)
    (h : (machine T fmt N config d₀).Reachable AddsReturned s) :
    ∃ entries, s.logger.written = entries.map Cell.line ∧ entries.Nodup ∧
      entries ⊆ s.logger.buffer.entries ∧
      (s.world.files.opened.length < d₀.files.opened.length + 2 ^ 32 →
        ∃ closed current, FileWriter.Rolling d₀ (config.logDirectory ++ config.logFileName)
            config.rollSize s.writer s.world closed current ∧
          current.flatten.length ≤ config.rollSize.toNat ∧
          closed.flatten ++ current = texts entries) ∧
      (s.world.cout = d₀.cout ++ if config.terminalOutput then (texts entries).flatten else []) ∧
      s.write.isSome := by
  obtain ⟨entries, hwritten, hwriter⟩ := Delivered.of_reachable h
  obtain ⟨hfiles, hcout⟩ := rolling_of_writeAll hwriter
  obtain ⟨hnodup, hadded⟩ := popped_distinct hN h
  have hpopped : s.logger.written <+: s.logger.buffer.popped :=
    (AsyncLogger.Quick.working hN (logger_reachable h)).written_prefix_popped
  rw [hwritten] at hpopped
  refine ⟨entries, hwritten, ?_, fun e he => ?_, hfiles, hcout,
    write_isSome (RingBuffer.Locked.lawful hN) h⟩
  · exact (hnodup.sublist hpopped.sublist).of_map _
  · obtain ⟨e', he', heq⟩ := hadded _ (hpopped.subset (List.mem_map_of_mem he))
    cases heq
    exact he'

/-- Two lines through a ring of two items. -/
theorem ring_files_hold_lines_two : ∃ (s : System Bool mute) (closed : List (List Text))
    (current : List Text),
    s.logger.written = [.line ⟨0, letterLine 98⟩, .line ⟨1, letterLine 99⟩] ∧
      FileWriter.Rolling emptyWorld (ascii "d/log") 10 s.writer s.world closed current ∧
      closed.flatten ++ current = [(letterLine 98).text, (letterLine 99).text] ∧
      s.world.cout = (letterLine 98).text ++ (letterLine 99).text := by
  obtain ⟨x, hx, hfin⟩ := Option.map_eq_some_iff.1 (show
    (((AsyncLogger.Quick.machine Bool (PrintedLine mute) 2).restrict
        (AsyncLogger.Quick.Careful 2)).exec (.new (.init 2))
      (addingTwo false true (letterLine 98) (letterLine 99) ++
        .own :: List.replicate 20 .work)).map (fun x => (x.worker, x.buffer.entries)) =
      some (.ended, [⟨0, letterLine 98⟩, ⟨1, letterLine 99⟩]) from rfl)
  obtain ⟨hend, hentries⟩ := Prod.mk.inj hfin
  have hwritten := AsyncLogger.Quick.written_at_end (by decide) (by decide) (.of_restrict hx) hend
  rw [hentries] at hwritten
  obtain ⟨s, hs, rfl⟩ := exists_reachable (RingBuffer.Locked.lawful (by decide)) toDirectory
    emptyWorld (fun _ _ hg => hg.1) (.of_restrict hx)
  have h : (machine Bool mute 2 toDirectory emptyWorld).Reachable AddsReturned s :=
    hs.mono fun _ _ hg => hg.1
  obtain ⟨entries, hlist, -, -, hfiles, hcout, -⟩ := ring_files_hold_lines (by decide) h
  obtain ⟨closed, current, hrolling, -, hlines⟩ := hfiles (by
    have hle := (Delivered.of_reachable h).opened_length
    rw [hwritten] at hle
    exact lt_of_le_of_lt hle (show 0 + 1 + 2 < 0 + 2 ^ 32 by decide))
  rw [← List.map_injective_iff.2 Cell.line_injective (hwritten.symm.trans hlist)] at hlines hcout
  refine ⟨s, closed, current, hwritten, hrolling, hlines, hcout.trans ?_⟩
  simp [emptyWorld, toDirectory, texts, Pushed.line]

/-- The destructor of a Quick logger whose ring of `2 ^ k` items is never overrun returns with
everything in the files: if every `add` has returned when it begins, then under every schedule that
gives worker and owner their turn again and again the owner joins the worker, and then, if fewer
than `2 ^ 32` files have been opened, the files numbered 1, 2, 3, … hold, in this order, the texts
of all lines added in the order of the claims. -/
theorem ring_destructor_leaves_files {k : ℕ} (hk : k ≤ 31)
    (h : (machine T fmt (2 ^ k) config d₀).Reachable (Careful (2 ^ k)) s)
    (ho : s.logger.owner.Destroying) {σ : ℕ → AsyncLogger.Label T (PrintedLine fmt)}
    (hfair : Machine.Fair σ fun l => l = .work ∨ l = .own)
    (hguard : ∀ n, Careful (2 ^ k) ((machine T fmt (2 ^ k) config d₀).run s σ n) (σ n)) :
    ∃ n s', (machine T fmt (2 ^ k) config d₀).run s σ n = s' ∧ s'.logger.owner = .joined ∧
      (s'.world.files.opened.length < d₀.files.opened.length + 2 ^ 32 →
        ∃ closed current, closed.flatten ++ current = texts s.logger.buffer.entries ∧
          ∀ i part, (closed ++ [current])[i]? = some part →
            s'.world.files.content
              (FileWriter.nameOf (config.logDirectory ++ config.logFileName) i) =
                some part.flatten) := by
  have hN : 0 < 2 ^ k := Nat.two_pow_pos k
  have hadds : (machine T fmt (2 ^ k) config d₀).Reachable AddsReturned s :=
    h.mono fun _ _ hg => hg.1
  have haddsAfter (n : ℕ) :
      AddsReturned ((machine T fmt (2 ^ k) config d₀).run s σ n) (σ n) := (hguard n).1
  obtain ⟨n, howner, hworker⟩ :=
    exists_joined (RingBuffer.Locked.lawful hN) hadds ho hfair haddsAfter
  have hr := Machine.run_reaches haddsAfter n
  have hcareful := logger_careful (h.trans (Machine.run_reaches hguard n))
  refine ⟨n, _, rfl, howner, fun hnum => ?_⟩
  obtain ⟨entries, hwritten, hwriter⟩ := Delivered.of_reachable (hadds.trans hr)
  obtain ⟨closed, current, hrolling, -, hlines⟩ := (rolling_of_writeAll hwriter).1 hnum
  refine ⟨closed, current, ?_, fun i part hpart => hrolling.content hpart⟩
  have hall := AsyncLogger.Quick.written_at_end hN (pow_dvd_pow 2 (by omega)) hcareful hworker
  have hadded := AsyncLogger.Quick.entries_of_destroying hN (logger_reachable hadds) ho
    (logger_reaches hr)
  have heq := hwritten.symm.trans hall
  rw [hlines, List.map_injective_iff.2 Cell.line_injective heq]
  exact congrArg texts hadded

/-- Two lines, and a destructor that begins before the worker has seen `READY`. -/
theorem ring_destructor_leaves_files_two : ∃ (s s' : System Bool mute)
    (closed : List (List Text)) (current : List Text),
    s.logger.worker = .waitInit ∧ s'.logger.owner = .joined ∧
      closed.flatten ++ current = [(letterLine 98).text, (letterLine 99).text] ∧
      ∀ i part, (closed ++ [current])[i]? = some part →
        s'.world.files.content (FileWriter.nameOf (ascii "d/log") i) = some part.flatten := by
  obtain ⟨x, hx, hfin⟩ := Option.map_eq_some_iff.1 (show
    (((AsyncLogger.Quick.machine Bool (PrintedLine mute) (2 ^ 1)).restrict
        (AsyncLogger.Quick.Careful (2 ^ 1))).exec (.new (.init (2 ^ 1)))
      (addingTwo false true (letterLine 98) (letterLine 99))).map
        (fun x => (x.owner, x.worker, x.buffer.entries)) =
      some (.destroying, .waitInit, [⟨0, letterLine 98⟩, ⟨1, letterLine 99⟩]) from rfl)
  simp only [Prod.mk.injEq] at hfin
  obtain ⟨howner, hworker, hentries⟩ := hfin
  obtain ⟨s, h, rfl⟩ := exists_reachable (RingBuffer.Locked.lawful (by decide)) toDirectory
    emptyWorld (fun _ _ hg => hg.1) (.of_restrict hx)
  have hguard (n : ℕ) : Careful (2 ^ 1)
      ((machine Bool mute (2 ^ 1) toDirectory emptyWorld).run s (inTurn _ _) n)
      (inTurn Bool (PrintedLine mute) n) := AsyncLogger.Quick.careful_inTurn _ n
  obtain ⟨n, s', hs', hjoined, hfiles⟩ := ring_destructor_leaves_files (k := 1) (by decide) h
    (by rw [howner]; trivial) (AsyncLogger.fair_inTurn _ _) hguard
  have hadds : (machine Bool mute (2 ^ 1) toDirectory emptyWorld).Reachable AddsReturned s :=
    h.mono fun _ _ hg => hg.1
  have hr : (machine Bool mute (2 ^ 1) toDirectory emptyWorld).Reaches AddsReturned s s' :=
    hs' ▸ Machine.run_reaches (fun n => (hguard n).1) n
  obtain ⟨closed, current, hlines, hparts⟩ := hfiles (by
    have hle := (Delivered.of_reachable (hadds.trans hr)).opened_length
    have hwritten := written_length_le (by decide) (hadds.trans hr)
    rw [AsyncLogger.Quick.entries_of_destroying (by decide) (logger_reachable hadds)
      (by rw [howner]; trivial) (logger_reaches hr), hentries] at hwritten
    exact lt_of_le_of_lt (hle.trans (Nat.add_le_add_left hwritten _))
      (show 0 + 1 + 2 < 0 + 2 ^ 32 by decide))
  rw [hentries] at hlines
  exact ⟨s, s', closed, current, hworker, hjoined, hlines, hparts⟩

end Quick

end Pipeline

end ZephyrLog
