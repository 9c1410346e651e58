/-
  HackAssembler.Program.Emission

  The words of a source whose labels are known. A symbol that has no address yet is a variable: it
  gets the next free address of the data memory, from 16 on, when it is first used.
-/
import HackAssembler.Binary
import HackAssembler.Command.Reader
import HackAssembler.Instruction.Encoding
import HackAssembler.Program
import HackAssembler.Text.Decimal

namespace HackAssembler

/-- The words of the lines read so far. -/
structure Emission where
  /-- The labels, the reserved symbols, and the variables met so far. -/
  symbols : SymbolTable
  /-- The address for the next variable. -/
  nextVariable : Nat
  words : Array Word

namespace Emission

/-- No line read: the labels and the reserved symbols are known. -/
def start (symbols : SymbolTable) : Emission :=
  ⟨symbols, variableBase, #[]⟩

/-! ## Addresses -/

/-- Literals below this bound are read as numbers. A larger one is reported as it was written. -/
def literalBound : Nat := 0x100000000

/-- The value of a literal. -/
def literal (line : Nat) (digits : String) : Except Error Nat :=
  match Text.readDecimal? digits with
  | some value => if value < literalBound then .ok value else .error (.addressRange line digits)
  | none => .error (.addressRange line digits)

/-- Gives a symbol an address if it has none. -/
def allocate (emission : Emission) (line : Nat) (name : String) : Report Emission :=
  if emission.symbols.contains name then pure emission
  else
    match Binary.field? 16 emission.nextVariable with
    | some address =>
      ⟨[.variableBound name address],
        .ok { emission with
          symbols := emission.symbols.insert name address
          nextVariable := emission.nextVariable + 1 }⟩
    | none => Report.fail (.addressRange line (toString emission.nextVariable))

/-- The address that a symbol has. -/
def addressOf (emission : Emission) (line : Nat) (name : String) : Except Error Nat :=
  match emission.symbols.get? name with
  | some address => .ok address.toNat
  | none => .error (.unresolved line name)

/-- The number that a literal or a symbol stands for, and the state after it was looked up. -/
def resolve (emission : Emission) (line : Nat) (symbol : String) : Report (Nat × Emission) := do
  if Text.isDecimal symbol then
    return (← Report.ofExcept (literal line symbol), emission)
  else
    let emission ← emission.allocate line symbol
    return (← Report.ofExcept (emission.addressOf line symbol), emission)

/-! ## Words -/

/-- Adds the word of a command, unless the command has no binary form. -/
def push (emission : Emission) (line : Nat) (command : Command) :
    Except EncodeFault MachineWord → Report Emission
  | .ok bits =>
    pure { emission with
      words := emission.words.push ⟨emission.words.size, line, command, bits⟩ }
  | .error fault => Report.fail (.ofEncodeFault line fault)

/-- Takes account of a command. -/
def addCommand (emission : Emission) (line : Nat) (command : Command) : Report Emission :=
  match command with
  | .label _ => pure emission
  | .address symbol => do
    let (value, emission) ← emission.resolve line symbol
    emission.push line command (Instruction.load value)
  | .compute dest comp jump => emission.push line command (Instruction.compute dest comp jump)

/-- Reads a line and takes account of its command. -/
def addLine (emission : Emission) (line : Line) : Report Emission := do
  match ← line.read with
  | some command => emission.addCommand line.number command
  | none => return emission

/-- The words of all lines, given the addresses of the labels. -/
def ofLines (symbols : SymbolTable) (lines : List Line) : Report Emission :=
  Report.fold addLine (start symbols) lines

end Emission

end HackAssembler
