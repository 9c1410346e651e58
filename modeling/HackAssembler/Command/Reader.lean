/-
  HackAssembler.Command.Reader

  Reading the commands of a source, line by line. What a line gives depends on that line alone, so
  a refused line does not keep the reader from the next one.

  `Reader` is for callers that go through a source one command at a time; it remembers the line it
  read last and the command it found there.
-/
import HackAssembler.Line
import HackAssembler.Command.Grammar
import HackAssembler.Report

namespace HackAssembler

/-! ## One line -/

/-- What there is to say about the tokens of a line besides the command they form. -/
def Line.remarks (line : Line) : List Event :=
  match line.tokens with
  | [] => [.emptyCommand line.number]
  | tokens =>
    match Command.unclosedLabel? tokens with
    | some name => [.unclosedLabel name line.number]
    | none => []

/-- The command on a line. A line without tokens has none. -/
def Line.command? (line : Line) : Except Error (Option Command) :=
  match line.tokens with
  | [] => .ok none
  | tokens =>
    match Command.ofTokens tokens with
    | .ok command => .ok (some command)
    | .error fault => .error (.malformed line.number fault.message)

/-- Reads a line: its command, with the remarks on it. -/
def Line.read (line : Line) : Report (Option Command) :=
  ⟨line.remarks, line.command?⟩

/-! ## One line after the other -/

/-- The state of reading a source command by command. -/
structure Reader where
  /-- The lines that are still to be read. -/
  pending : List Line
  /-- The number of the line read last, or 0 before the first. -/
  line : Nat := 0
  /-- The command of the line read last, if it had one. -/
  command : Option Command := none

namespace Reader

/-- A reader at the beginning of a source. -/
def ofSource (source : String) : Reader :=
  { pending := Line.ofSource source }

/-- Tells whether a line is left. -/
def hasMore (reader : Reader) : Bool :=
  !reader.pending.isEmpty

/-- Reads the next line. The report tells whether there was a command on it; the reader goes on to
    the line after it in every case. -/
def advance (reader : Reader) : Report Bool × Reader :=
  match reader.pending with
  | [] => (pure false, { reader with command := none })
  | line :: pending =>
    let report := line.read
    match report.result with
    | .ok command => (⟨report.log, .ok command.isSome⟩, ⟨pending, line.number, command⟩)
    | .error error => (⟨report.log, .error error⟩, ⟨pending, line.number, none⟩)

end Reader

end HackAssembler
