/-
  HackAssembler.Program.Labels

  Where the labels of a source are. A label names the address of the instruction that follows it,
  which is the number of instructions before it. A label that is declared again, or that has the
  name of a reserved symbol, takes the later address.
-/
import HackAssembler.Binary
import HackAssembler.Command.Reader
import HackAssembler.SymbolTable

namespace HackAssembler

/-- The labels of the lines read so far. -/
structure Labels where
  /-- The number of instructions. -/
  instructions : Nat
  /-- The labels with their addresses, and the reserved symbols. -/
  symbols : SymbolTable

namespace Labels

/-- No line read: the reserved symbols alone. -/
def start : Labels :=
  ⟨0, .reserved⟩

/-- What a binding is logged as. -/
def bindingEvent (symbols : SymbolTable) (line : Nat) (name : String) (address : Address) : Event :=
  match symbols.get? name with
  | some previous => .labelRebound name line previous address
  | none => .labelBound name address

/-- Binds a label to the address of the next instruction, if there is such an address. -/
def bind (labels : Labels) (line : Nat) (name : String) : Report Labels :=
  match Binary.field? 16 labels.instructions with
  | some address =>
    ⟨[bindingEvent labels.symbols line name address],
      .ok { labels with symbols := labels.symbols.insert name address }⟩
  | none => Report.fail (.addressRange line (toString labels.instructions))

/-- Takes account of a command. -/
def addCommand (labels : Labels) (line : Nat) : Command → Report Labels
  | .label name => labels.bind line name
  | _ => pure { labels with instructions := labels.instructions + 1 }

/-- Reads a line and takes account of its command. -/
def addLine (labels : Labels) (line : Line) : Report Labels := do
  match ← line.read with
  | some command => labels.addCommand line.number command
  | none => return labels

/-- The labels of all lines. -/
def ofLines (lines : List Line) : Report Labels :=
  Report.fold addLine start lines

end Labels

end HackAssembler
