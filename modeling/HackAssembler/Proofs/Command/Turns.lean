/-
  HackAssembler.Proofs.Command.Turns

  A reader reads every line once and by itself. What a call gives is settled by the line that comes
  next, also if the lines before it were refused, and when no line is left every call gives nothing.
  So going through a source with a reader is the same as going through the list of its lines.
-/
import HackAssembler.Command.Turns
import HackAssembler.Program.Assemble
import HackAssembler.Proofs.Command.QueuedReader
import HackAssembler.Proofs.Line

namespace HackAssembler

/-! ## The steps of both turns -/

theorem Labels.addLine_eq (labels : Labels) (line : Line) :
    labels.addLine line =
      line.read >>= fun command => command.elim (pure labels) (labels.addCommand line.number) := by
  unfold Labels.addLine
  congr
  funext command
  cases command <;> rfl

theorem Emission.addLine_eq (emission : Emission) (line : Line) :
    emission.addLine line =
      line.read >>= fun command =>
        command.elim (pure emission) (emission.addCommand line.number) := by
  unfold Emission.addLine
  congr
  funext command
  cases command <;> rfl

namespace Reader

variable {σ : Type} {reader : Reader} {line : Line} {pending : List Line}

/-! ## One call -/

/-- All that a call gives is of the line that comes next. -/
theorem advance_of_pending (hpending : reader.pending = line :: pending) :
    reader.advance = (⟨line.remarks, line.command?.map Option.isSome⟩,
      ⟨pending, line.number, line.command?.toOption.join⟩) := by
  cases hcommand : line.command? with
  | ok command =>
    rw [advance_of_ok hpending hcommand]
    rfl
  | error error =>
    rw [advance_of_error hpending hcommand]
    rfl

/-- There is a command after a call exactly if the call has told so. -/
theorem isSome_command_advance (reader : Reader) :
    reader.advance.2.command.isSome = true ↔ reader.advance.1.result = .ok true := by
  cases hpending : reader.pending with
  | nil => simp [advance, hpending]
  | cons line pending =>
    rw [advance_of_pending hpending]
    cases hcommand : line.command? with
    | ok command => simp [Except.map, Except.toOption]
    | error error => simp [Except.map, Except.toOption]

/-! ## Any number of calls -/

theorem hasMore_iff : reader.hasMore = true ↔ 0 < reader.pending.length := by
  simp [hasMore, List.length_pos_iff]

/-- The number of a line stays until the next line is read. -/
theorem line_iterate_advance (count : Nat) (reader : Reader) :
    ((fun reader : Reader => reader.advance.2)^[count] reader).line =
      ((reader.pending.take count).getLast?.map Line.number).getD reader.line := by
  induction count generalizing reader with
  | zero => rfl
  | succ count ih =>
    rw [Function.iterate_succ_apply, ih, pending_advance]
    cases hpending : reader.pending with
    | nil => simp [advance, hpending]
    | cons line pending =>
      rw [advance_of_pending hpending, List.tail_cons, List.take_succ_cons, List.getLast?_cons]
      cases (pending.take count).getLast? with
      | none => rfl
      | some last => rfl

/-! ## Turns -/

section Turns

variable {take : σ → Nat → Command → Report σ} {step : σ → Line → Report σ}

/-- A turn does what a step over the line that comes next does. -/
theorem turn_of_pending (hpending : reader.pending = line :: pending) (state : σ) :
    turn take state reader =
      (line.read >>= fun command => command.elim (pure state) (take state line.number)) >>=
        fun state => pure (state, reader.advance.2) := by
  rw [turn, advance_of_pending hpending]
  have hread : line.read = ⟨line.remarks, line.command?⟩ := rfl
  rw [hread]
  cases line.command? with
  | error error => rfl
  | ok command =>
    rw [Report.bind_ok, Report.after_bind]
    cases command with
    | none => rfl
    | some command => rfl

/-- One turn a line is enough, and then the turns do what the steps do one after the other. -/
theorem turns?_eq_fold
    (hstep : ∀ state line, step state line =
      line.read >>= fun command => command.elim (pure state) (take state line.number))
    {limit : Nat} (hlimit : reader.pending.length ≤ limit) (state : σ) :
    turns? take limit state reader = some (Report.fold step state reader.pending) := by
  induction limit generalizing state reader with
  | zero =>
    have hpending : reader.pending = [] := List.length_eq_zero_iff.mp (by omega)
    simp [turns?, hasMore, hpending]
  | succ limit ih =>
    cases hpending : reader.pending with
    | nil => simp [turns?, hasMore, hpending]
    | cons line pending =>
      have hmore : reader.hasMore = true := by simp [hasMore, hpending]
      have hrest : reader.advance.2.pending = pending := by
        rw [pending_advance, hpending, List.tail_cons]
      rw [turns?, if_pos hmore, turn_of_pending hpending, ← hstep, Report.fold_cons]
      -- The step is refused, or the other turns start from its result.
      obtain ⟨log, result⟩ := step state line
      cases result with
      | error error => rfl
      | ok state =>
        have hlength : reader.advance.2.pending.length ≤ limit := by
          rw [hpending, List.length_cons] at hlimit
          rw [hrest]
          omega
        have hturns := ih hlength state
        rw [hrest] at hturns
        rw [Report.bind_ok, Report.bind_ok]
        show (turns? take limit state reader.advance.2).map (Report.after (log ++ [])) = _
        rw [hturns, List.append_nil]
        rfl

end Turns

/-! ## Main result -/

/-- The reader of a source after a number of calls. -/
def afterCalls (source : String) (count : Nat) : Reader :=
  (fun reader => reader.advance.2)^[count] (ofSource source)

theorem afterCalls_succ (source : String) (count : Nat) :
    afterCalls source (count + 1) = (afterCalls source count).advance.2 :=
  Function.iterate_succ_apply' ..

theorem pending_afterCalls (source : String) (count : Nat) :
    (afterCalls source count).pending = (Line.ofSource source).drop count :=
  pending_iterate_advance count _

/-- A reader reads every line of a source once, in order and by itself. A line is left before as
    many calls as there are lines and before no other. The call for a line gives what the call of a
    new reader gives that has this line alone, at its place, however the calls before it have
    ended. Every call after the last line gives nothing, and the number of the last line stays, or
    0 if there is none. A command is there after a call exactly if the call has told so. It makes
    no difference to any of this if the tokens of a line are kept in a queue and a refusal leaves
    some behind. Both turns of the assembler can therefore be made with a reader, and end after at
    most one turn a line. -/
theorem advance_reads_each_line (source : String) :
    (∀ count, (afterCalls source count).hasMore = true ↔ count < (Line.ofSource source).length) ∧
    (∀ count line, (Line.ofSource source)[count]? = some line →
      let alone := ofSource (Line.isolate source line.number)
      alone.pending = [line] ∧
        (afterCalls source count).advance.1 = alone.advance.1 ∧
        (afterCalls source (count + 1)).command = alone.advance.2.command ∧
        (afterCalls source (count + 1)).line = line.number) ∧
    (∀ count, (Line.ofSource source).length ≤ count →
      (afterCalls source count).advance.1 = ⟨[], .ok false⟩ ∧
        (afterCalls source count).line =
          ((Line.ofSource source).getLast?.map Line.number).getD 0) ∧
    (∀ count, (afterCalls source (count + 1)).command.isSome = true ↔
      (afterCalls source count).advance.1.result = .ok true) ∧
    (∀ count tokens log,
      let queued := (fun reader => reader.advance.2)^[count]
        { QueuedReader.ofSource source with tokens := tokens, log := log }
      queued.toReader = afterCalls source count ∧
        queued.advance.1 = (afterCalls source count).advance.1) ∧
    ∀ limit, (Line.ofSource source).length ≤ limit →
      turns? Labels.addCommand limit .start (ofSource source) =
          some (Labels.ofLines (Line.ofSource source)) ∧
        ∀ symbols, turns? Emission.addCommand limit (.start symbols) (ofSource source) =
          some (Emission.ofLines symbols (Line.ofSource source)) := by
  refine ⟨?_, ?_, ?_, ?_, ?_, ?_⟩
  · intro count
    rw [hasMore_iff, pending_afterCalls, List.length_drop]
    omega
  · intro count line hline alone
    have hstands : line.StandsIn source :=
      Line.mem_ofSource_iff.mp (List.mem_of_getElem? hline)
    have halone : alone.pending = [line] := hstands.ofSource_isolate
    obtain ⟨hcount, rfl⟩ := List.getElem?_eq_some_iff.mp hline
    have hnext := pending_afterCalls source count
    rw [List.drop_eq_getElem_cons hcount] at hnext
    rw [afterCalls_succ, advance_of_pending hnext, advance_of_pending halone]
    exact ⟨halone, rfl, rfl, rfl⟩
  · intro count hcount
    have hnone : (afterCalls source count).pending = [] := by
      rw [pending_afterCalls, List.drop_eq_nil_of_le hcount]
    refine ⟨?_, ?_⟩
    · unfold advance
      rw [hnone]
      rfl
    · rw [afterCalls, line_iterate_advance]
      show (((Line.ofSource source).take count).getLast?.map Line.number).getD 0 = _
      rw [List.take_of_length_le hcount]
  · intro count
    rw [afterCalls_succ]
    exact isSome_command_advance _
  · intro count tokens log queued
    have hqueued : queued.toReader = afterCalls source count :=
      QueuedReader.toReader_iterate_advance count _
    refine ⟨hqueued, ?_⟩
    rw [(QueuedReader.advance_eq queued).1, hqueued]
  · intro limit hlimit
    have hlength : (ofSource source).pending.length ≤ limit := hlimit
    exact ⟨turns?_eq_fold Labels.addLine_eq hlength .start,
      fun symbols => turns?_eq_fold Emission.addLine_eq hlength (.start symbols)⟩

/-- Two refusals, the second of which leaves tokens behind, and the line after them. -/
theorem advance_reads_each_line_refused :
    let source := "@\n\n(A D\n@1"
    (afterCalls source 2).advance.1 = ⟨[], .ok true⟩ ∧
      (afterCalls source 3).command = some (.address "1") ∧
      (afterCalls source 3).line = 4 ∧ (afterCalls source 3).hasMore = false := by
  intro source
  have hlines : Line.ofSource source =
      [⟨1, [.operator .atSign]⟩, ⟨3, [.operator .openParen, .identifier "A", .identifier "D"]⟩,
        ⟨4, [.operator .atSign, .number "1"]⟩] := by
    decide +kernel
  obtain ⟨hmore, hcalls, -⟩ := advance_reads_each_line source
  have hlast : (Line.ofSource source)[2]? = some ⟨4, [.operator .atSign, .number "1"]⟩ := by
    rw [hlines]
    rfl
  obtain ⟨halone, hreport, hcommand, hline⟩ := hcalls 2 _ hlast
  have htokens : Command.ofTokens [.operator .atSign, .number "1"] = .ok (.address "1") := by
    decide
  rw [advance_of_command halone htokens] at hreport hcommand
  have hdone : ¬ (afterCalls source 3).hasMore = true := by
    rw [hmore 3, hlines]
    decide
  exact ⟨hreport, hcommand, hline, Bool.eq_false_iff.mpr hdone⟩

end Reader

end HackAssembler
