/-
  HackAssembler.Program.Account

  What the log of an assembled source says, told of the whole source at once and without a table
  that changes on the way. The lines are gone through twice, and both times every line has its
  entries: a warning about a label without `)`, and then what became of the symbol on the line.

  A label is told with the number of instructions before it. If its name stood for another number
  until then, that number is told as well. A variable is told where it is first used.
-/
import HackAssembler.Event
import HackAssembler.Program
import HackAssembler.Program.Meaning

namespace HackAssembler

/-! ## Entries of a log -/

/-- An event as it stands in a log: its level and its wording. -/
def Event.entry (event : Event) : Level × String :=
  (event.level, event.message)

/-- The warnings of a log. -/
def warnings (log : List Event) : List Event :=
  log.filter fun event => event.level = .warn

/-- What there is to tell of each line, given the statement on it and those on the lines before. -/
def lineByLine {α : Type} (told : List Statement → Line → Statement → List α) (lines : List Line)
    (statements : List Statement) : List α :=
  (lines.zip statements).zipIdx.flatMap fun ((line, statement), index) =>
    told (statements.take index) line statement

namespace Statement

/-! ## What is told of a line -/

/-- The warning about a label whose line has no `)`. -/
def closingEntries (line : Line) (statement : Statement) : List (Level × String) :=
  match statement.command with
  | .label name =>
    if Token.operator .closeParen ∈ line.tokens then []
    else [(.warn, s!"label `{name}` on line {line.number} is missing its closing `)`")]
  | _ => []

/-- The entry of a label behind the statements `earlier`. -/
def bindingEntry (earlier : List Statement) (line : Nat) (name : String) : Level × String :=
  let address := (instructions earlier).length
  if isReserved name ∨ name ∈ declared earlier then
    (.debug, s!"label `{name}` on line {line} rebinds {value earlier name} to {address}")
  else (.debug, s!"label `{name}` = {address}")

/-- What is told of a line when labels are collected. -/
def labelEntries (earlier : List Statement) (line : Line) (statement : Statement) :
    List (Level × String) :=
  closingEntries line statement ++
    match statement.command with
    | .label name => [bindingEntry earlier line.number name]
    | _ => []

/-- The entry of a variable. -/
def variableEntry (name : String) (address : Nat) : Level × String :=
  (.debug, s!"variable `{name}` = {address}")

/-- The entry of a variable that is used for the first time. -/
def firstUseEntries (statements earlier : List Statement) (statement : Statement) :
    List (Level × String) :=
  match statement.command with
  | .address symbol =>
    if symbol ∈ variableNames statements ∧ symbol ∉ used earlier then
      [variableEntry symbol (value statements symbol)]
    else []
  | _ => []

/-- What is told of a line of a program when words are emitted. -/
def wordEntries (statements earlier : List Statement) (line : Line) (statement : Statement) :
    List (Level × String) :=
  closingEntries line statement ++ firstUseEntries statements earlier statement

end Statement

/-! ## The whole log -/

open Statement (labelEntries wordEntries)

/-- The log of a source with the given lines and statements, which is assembled to a program. -/
def Program.account (lines : List Line) (statements : List Statement) (program : Program) :
    List (Level × String) :=
  [(.debug, "pass 1: collecting labels")] ++ lineByLine labelEntries lines statements ++
    [(.debug, "pass 2: emitting code")] ++ lineByLine (wordEntries statements) lines statements ++
    [(.info,
      s!"assembled {program.words.length} instruction(s), {program.symbols.size} symbol(s)")]

end HackAssembler
