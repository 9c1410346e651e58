/-
  HackAssembler.Proofs.Program.Reprinting

  Commands that are written out, one a line, and read again. Commands that stand in a source are
  found again in the same order, on lines that follow each other, and there is nothing to remark on
  them (`Program.lines_sourceOf`). The source that is written from the commands of another is
  therefore assembled like that one, up to the numbers of lines.
-/
import HackAssembler.Proofs.Command.Text
import HackAssembler.Proofs.Program.Renumbering
import HackAssembler.Proofs.Program.Statement

namespace HackAssembler

/-! ## Written lines -/

namespace Command

variable {tokens : List Token} {command : Command}

/-- The text of a label has its closing parenthesis. -/
theorem Written.unclosedLabel? (h : Written tokens command) :
    Command.unclosedLabel? tokens = none := by
  obtain ⟨hderives, -, -, htext⟩ := h
  cases hcommand : command with
  | label name =>
    subst hcommand
    cases hderives with
    | openLabel name =>
      -- Without the parenthesis the tokens are too short for the text.
      have hlength := congrArg List.length htext
      simp [text] at hlength
    | label name => rfl
  | address symbol => exact hderives.unclosedLabel? (by rw [hcommand]; rfl)
  | compute dest comp jump => exact hderives.unclosedLabel? (by rw [hcommand]; rfl)

/-- There is nothing to remark on the line of a written command. -/
theorem Written.read {line : Line} (h : Written line.tokens command) :
    line.read = ⟨[], .ok (some command)⟩ := by
  have hne := h.derives.ne_nil
  have hremarks : line.remarks = [] := by
    rw [Line.remarks_eq hne, h.unclosedLabel?]
    rfl
  rw [Line.read, hremarks, line.command?_of_ok hne (ofTokens_of_derives h.derives)]

end Command

/-- A line that is read has a command that can be written. -/
theorem Line.Reads.exists_written {line : Line} {statement : Statement} (h : line.Reads statement)
    (hlexeme : ∀ token ∈ line.tokens, token.IsLexeme) :
    ∃ tokens, Command.Written tokens statement.command :=
  Command.exists_written (Command.derives_of_ofTokens h.2) hlexeme

theorem Line.map_line_of_reads {lines : List Line} {statements : List Statement}
    (h : List.Forall₂ Line.Reads lines statements) (place : Nat → Nat) :
    statements.map (fun statement => place statement.line) =
      lines.map fun line => place line.number := by
  induction h with
  | nil => rfl
  | cons hline _ ih => rw [List.map_cons, List.map_cons, hline.1, ih]

/-- Lines that are read as the same commands. -/
theorem Line.sameUpTo_of_reads {place : Nat → Nat} {lines others : List Line}
    {statements : List Statement} (h : List.Forall₂ Line.Reads lines statements)
    (h' : List.Forall₂ Line.Reads others (statements.map (Statement.renumber place))) :
    List.Forall₂ (Line.SameUpTo place) lines others := by
  induction h generalizing others with
  | nil =>
    cases h'
    exact .nil
  | @cons line statement lines statements hline _ ih =>
    rw [List.map_cons, List.forall₂_cons_right_iff] at h'
    obtain ⟨other, others, hother, hothers, rfl⟩ := h'
    refine .cons ⟨?_, ?_⟩ (ih hothers)
    · rw [← hother.1, ← hline.1]
      rfl
    · rw [hline.command?, hother.command?]
      rfl

namespace Program

/-! ## Sources of commands -/

/-- The source that has each command on a line of its own. -/
def sourceOf (commands : List Command) : String :=
  String.join (commands.map fun command => command.text.push '\n')

/-- The statements of such a source. -/
def statementsOf (commands : List Command) : List Statement :=
  (commands.zipIdx 1).map fun (command, number) => ⟨number, command⟩

/-- Commands that are written one a line have their tokens on these lines. -/
theorem lines_sourceOf {commands : List Command}
    (h : ∀ command ∈ commands, ∃ tokens, Command.Written tokens command) :
    List.Forall₂ (fun line statement => statement.line = line.number ∧
        Command.Written line.tokens statement.command)
      (Line.ofSource (sourceOf commands)) (statementsOf commands) := by
  have hsource : (sourceOf commands).toList =
      (commands.map fun command => command.text.toList).flatMap fun text => text ++ ['\n'] := by
    rw [sourceOf, String.toList_join, List.flatMap_map, List.flatMap_map]
    simp
  have hnewline : ∀ text ∈ commands.map (fun command => command.text.toList), '\n' ∉ text := by
    intro text htext
    obtain ⟨command, hcommand, rfl⟩ := List.mem_map.mp htext
    obtain ⟨tokens, htokens⟩ := h command hcommand
    exact htokens.newline_not_mem
  rw [Line.ofSource_of_lines hsource hnewline, statementsOf]
  clear hsource hnewline
  -- The lines are numbered from any number on.
  generalize 1 = first
  induction commands generalizing first with
  | nil => exact .nil
  | cons command commands ih =>
    rw [List.forall_mem_cons] at h
    obtain ⟨⟨tokens, htokens⟩, hrest⟩ := h
    rw [List.map_cons, List.zipIdx_cons, List.zipIdx_cons, List.map_cons, List.filterMap_cons]
    simp only [htokens.ofText? first]
    exact .cons ⟨rfl, htokens⟩ (ih hrest (first + 1))

/-- Commands that are written one a line are read again. -/
theorem reads_sourceOf {commands : List Command}
    (h : ∀ command ∈ commands, ∃ tokens, Command.Written tokens command) :
    List.Forall₂ Line.Reads (Line.ofSource (sourceOf commands)) (statementsOf commands) :=
  (lines_sourceOf h).imp fun _ _ hline => ⟨hline.1, Command.ofTokens_of_derives hline.2.derives⟩

theorem map_command_statementsOf (commands : List Command) :
    (statementsOf commands).map Statement.command = commands := by
  rw [statementsOf, List.map_map]
  exact List.zipIdx_map_fst 1 commands

/-- Commands that are written one a line are read on lines that follow each other, and there is
    nothing to remark on them. -/
theorem map_read_sourceOf {commands : List Command}
    (h : ∀ command ∈ commands, ∃ tokens, Command.Written tokens command) :
    (Line.ofSource (sourceOf commands)).map (fun line => (line.number, line.read)) =
      (commands.zipIdx 1).map (fun (command, number) => (number, ⟨[], .ok (some command)⟩)) := by
  have hlines : (Line.ofSource (sourceOf commands)).map (fun line => (line.number, line.read)) =
      (statementsOf commands).map fun statement =>
        (statement.line, ⟨[], .ok (some statement.command)⟩) := by
    rw [← List.forall₂_eq_eq_eq, List.forall₂_map_left_iff, List.forall₂_map_right_iff]
    refine (lines_sourceOf h).imp fun line statement hline => ?_
    rw [hline.1, hline.2.read]
  rw [hlines, statementsOf, List.map_map]
  rfl

/-- Statements with other numbers are those of the source of their commands if the numbers are
    1, 2, 3 and so on. -/
theorem statementsOf_map_command {place : Nat → Nat} {statements : List Statement}
    (h : statements.map (fun statement => place statement.line) =
      List.range' 1 statements.length) :
    statementsOf (statements.map Statement.command) =
      statements.map (Statement.renumber place) := by
  have hlength : (statementsOf (statements.map Statement.command)).length = statements.length := by
    simp [statementsOf]
  apply List.ext_getElem
  · rw [hlength, List.length_map]
  · intro index hindex hindex'
    have hat : place statements[index].line = 1 + index := by
      have hplace := List.getElem_of_eq h (i := index) (by simpa using hindex')
      simpa using hplace
    simp [statementsOf, Statement.renumber, hat]

/-! ## Main result -/

/-- The commands of a source, written one a line, are read again without error or remark, from
    line 1 on. The source that was written is assembled like the first one, and the lines of words
    and of errors are those of the same commands. -/
theorem assemble_reprinted {source : String} {statements : List Statement}
    (h : Statement.ofLines (Line.ofSource source) = .ok statements) :
    let commands := statements.map Statement.command
    (Line.ofSource (sourceOf commands)).map (fun line => (line.number, line.read)) =
        (commands.zipIdx 1).map (fun (command, number) => (number, ⟨[], .ok (some command)⟩)) ∧
      ∃ place : Nat → Nat,
        (Line.ofSource source).map (fun line => place line.number) =
          List.range' 1 commands.length ∧
        AgreesUpTo place (assemble source).result (assemble (sourceOf commands)).result := by
  intro commands
  have hreads := Statement.reads_of_ofLines
    (fun _ hline => (Line.mem_ofSource_iff.mp hline).tokens_ne_nil) h
  have hwritten : ∀ command ∈ commands, ∃ tokens, Command.Written tokens command := by
    intro command hcommand
    obtain ⟨statement, hstatement, rfl⟩ := List.mem_map.mp hcommand
    obtain ⟨line, hline, hreads⟩ := exists_of_forall₂_of_mem hreads hstatement
    exact hreads.exists_written (Line.mem_ofSource_iff.mp hline).isLexeme
  refine ⟨map_read_sourceOf hwritten, ?_⟩
  have hlength : commands.length = statements.length := List.length_map _
  have hnumbers : (Line.ofSource source).length = (List.range' 1 commands.length).length := by
    rw [hreads.length_eq, List.length_range', hlength]
  obtain ⟨place, hplace⟩ := Line.exists_place source hnumbers
  refine ⟨place, hplace, ?_⟩
  have hstatements : statementsOf commands = statements.map (Statement.renumber place) := by
    apply statementsOf_map_command
    rw [← hlength, ← hplace]
    exact Line.map_line_of_reads hreads place
  have hothers := reads_sourceOf hwritten
  rw [hstatements] at hothers
  exact agreesUpTo_of_sameUpTo (Line.sameUpTo_of_reads hreads hothers)

/-- A label without parenthesis, a second assignment and a number with a sign, none of which has a
    word: both sources are rejected because of the same command. -/
theorem assemble_reprinted_odd :
    let source := "( END // open\n\n D = A=M ; JGT\n -007\n"
    let reprinted := "(END)\nD=A=M;JGT\n-007\n"
    (Line.ofSource reprinted).map (fun line => (line.number, line.read)) =
        [(1, ⟨[], .ok (some (.label "END"))⟩),
          (2, ⟨[], .ok (some (.compute (some "D") "A=M" (some "JGT")))⟩),
          (3, ⟨[], .ok (some (.compute none "-007" none))⟩)] ∧
      ∃ place : Nat → Nat, (Line.ofSource source).map (fun line => place line.number) = [1, 2, 3] ∧
        AgreesUpTo place (assemble source).result (assemble reprinted).result := by
  intro source reprinted
  let statements : List Statement := [⟨1, .label "END"⟩,
    ⟨3, .compute (some "D") "A=M" (some "JGT")⟩, ⟨4, .compute none "-007" none⟩]
  have hstatements : Statement.ofLines (Line.ofSource source) = .ok statements := by
    decide +kernel
  have hreprinted : sourceOf (statements.map Statement.command) = reprinted := by
    decide +kernel
  obtain ⟨hread, place, hplace, hagrees⟩ := assemble_reprinted hstatements
  rw [hreprinted] at hread hagrees
  exact ⟨hread, place, hplace, hagrees⟩

end Program

end HackAssembler
