/-
  HackAssembler.Program.Renumbering

  What does not depend on where the lines of a source are. Line numbers are kept in the lines, in
  the words of a program and in its errors, and nowhere else; renumbering changes them and leaves
  all else alone.
-/
import HackAssembler.Error
import HackAssembler.Line
import HackAssembler.Program
import HackAssembler.Program.Meaning

namespace HackAssembler

/-- The line with its tokens at another place. -/
def Line.renumber (place : Nat → Nat) (line : Line) : Line :=
  { line with number := place line.number }

/-- The command on another line. -/
def Statement.renumber (place : Nat → Nat) (statement : Statement) : Statement :=
  { statement with line := place statement.line }

/-- The word of a command that stands on another line. -/
def Word.renumber (place : Nat → Nat) (word : Word) : Word :=
  { word with line := place word.line }

/-- The error on another line. Errors of files stand on none. -/
def Error.renumber (place : Nat → Nat) : Error → Error
  | sourceRead path fault => sourceRead path fault
  | malformed line message => malformed (place line) message
  | unknownComputation line comp => unknownComputation (place line) comp
  | unknownDestination line dest => unknownDestination (place line) dest
  | unknownJump line jump => unknownJump (place line) jump
  | addressRange line value => addressRange (place line) value
  | unresolved line symbol => unresolved (place line) symbol
  | outputWrite path fault => outputWrite path fault

/-- Two sources are both assembled, to the same program with the same output file, or are both
    rejected, with the same error, up to the numbers of their lines. -/
inductive Program.AgreesUpTo (place : Nat → Nat) :
    Except Error Program → Except Error Program → Prop where
  | program {program other : Program}
      (words : other.words = program.words.map (Word.renumber place))
      (symbols : other.symbols = program.symbols) (text : other.toText = program.toText) :
      AgreesUpTo place (.ok program) (.ok other)
  | error (error : Error) : AgreesUpTo place (.error error) (.error (error.renumber place))

end HackAssembler
