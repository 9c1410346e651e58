/-
  HackAssembler.Program.Meaning

  What the symbols of a program stand for, said of the whole program at once and without a table
  that changes on the way.

  A name that is declared anywhere stands for the number of instructions before its last
  declaration, even if it is used earlier or is a reserved name. Any other reserved name stands for
  its own address. What remains are the variables; they have addresses from 16 on in the order of
  their first use.
-/
import HackAssembler.Command.Reader
import HackAssembler.SymbolTable
import HackAssembler.Text.Decimal

namespace HackAssembler

/-- A command with the source line it stands on. -/
structure Statement where
  line : Nat
  command : Command
deriving DecidableEq, Repr

namespace Statement

/-! ## Statements of a source -/

/-- The statements of some lines, or the error of the first line that has none. -/
def ofLines : List Line → Except Error (List Statement)
  | [] => .ok []
  | line :: lines => do
    let command? ← line.command?
    let statements ← ofLines lines
    match command? with
    | some command => return ⟨line.number, command⟩ :: statements
    | none => return statements

/-- The statements that take a word of the program, in order. -/
def instructions (statements : List Statement) : List Statement :=
  statements.filter fun statement => statement.command.isInstruction

/-! ## Labels -/

/-- The names that are declared as labels, in order. -/
def declared (statements : List Statement) : List String :=
  statements.filterMap fun statement =>
    match statement.command with
    | .label name => some name
    | _ => none

/-- The number of instructions before the last declaration of a name. -/
def declaration? (name : String) : List Statement → Option Nat
  | [] => none
  | statement :: statements =>
    match declaration? name statements with
    | some count => some (if statement.command.isInstruction then count + 1 else count)
    | none => if statement.command = .label name then some 0 else none

/-! ## Variables -/

/-- The symbols that are used, in order. Literals are not symbols. -/
def used (statements : List Statement) : List String :=
  statements.filterMap fun statement =>
    match statement.command with
    | .address symbol => if Text.isDecimal symbol then none else some symbol
    | _ => none

/-- The variables, each once, in the order of their first use. -/
def variableNames (statements : List Statement) : List String :=
  ((used statements).filter fun name =>
    !(declared statements).contains name && !isReserved name).eraseDups

/-! ## Values -/

/-- The number that a literal or a symbol stands for. -/
def value (statements : List Statement) (symbol : String) : Nat :=
  if Text.isDecimal symbol then Text.decimalValue symbol.toList
  else
    match declaration? symbol statements with
    | some count => count
    | none =>
      match reservedSymbols.lookup symbol with
      | some address => address.toNat
      | none => variableBase + (variableNames statements).idxOf symbol

end Statement

end HackAssembler
