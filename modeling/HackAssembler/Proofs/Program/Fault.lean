/-
  HackAssembler.Proofs.Program.Fault

  What keeps a source from being assembled, said without assembling it. A line is at fault for the
  labels if its tokens form no command, or if it declares a label so late that there is no address
  for it. A line is at fault for the words if its command has no binary form; whether an address
  is too large depends on the values of the whole program.
-/
import HackAssembler.Program.Emission
import HackAssembler.Proofs.Program.Statement

namespace HackAssembler

/-! ## Faults for the labels -/

/-- Tells whether a line holds a command that takes a word of the program. -/
def Line.holdsInstruction (line : Line) : Bool :=
  match Command.ofTokens line.tokens with
  | .ok command => command.isInstruction
  | .error _ => false

/-- The number of lines that hold an instruction. -/
def Line.instructionCount (lines : List Line) : Nat :=
  lines.countP Line.holdsInstruction

/-- The fault of a line behind the lines `before` when labels are collected. -/
inductive LabelFault (before : List Line) (line : Line) : Error → Prop where
  /-- The tokens of the line form no command. -/
  | malformed {fault : SyntaxFault} (refused : Command.ofTokens line.tokens = .error fault) :
      LabelFault before line (.malformed line.number fault.message)
  /-- The line declares a label behind more instructions than there are addresses. -/
  | outOfReach {name : String} (declares : Command.ofTokens line.tokens = .ok (.label name))
      (late : 65535 < Line.instructionCount before) :
      LabelFault before line
        (.addressRange line.number (toString (Line.instructionCount before)))

theorem LabelFault.line? {before : List Line} {line : Line} {error : Error}
    (h : LabelFault before line error) : error.line? = some line.number := by
  cases h <;> rfl

/-! ## Faults for the words -/

namespace Statement

/-- How a value that is too large is reported. A literal that is no 32-bit number is reported as it
    was written, any other value in decimal digits. -/
def valueText (statements : List Statement) (symbol : String) : String :=
  if Text.isDecimal symbol ∧ Emission.literalBound ≤ value statements symbol then symbol
  else toString (value statements symbol)

end Statement

open Instruction (compTable destTable jumpTable)

/-- The fault of a line of a program when words are emitted. -/
inductive WordFault (statements : List Statement) (line : Line) : Error → Prop where
  /-- The line loads a number that has more than 15 bits. -/
  | addressRange {symbol : String} (loads : Command.ofTokens line.tokens = .ok (.address symbol))
      (large : 32767 < Statement.value statements symbol) :
      WordFault statements line
        (.addressRange line.number (Statement.valueText statements symbol))
  /-- The computation has no mnemonic. -/
  | computation {dest jump : Option String} {comp : String}
      (computes : Command.ofTokens line.tokens = .ok (.compute dest comp jump))
      (unknown : comp ∉ compTable.map Prod.fst) :
      WordFault statements line (.unknownComputation line.number comp)
  /-- The computation has a mnemonic, the destination has none. -/
  | destination {dest comp : String} {jump : Option String}
      (computes : Command.ofTokens line.tokens = .ok (.compute (some dest) comp jump))
      (known : comp ∈ compTable.map Prod.fst) (unknown : dest ∉ destTable.map Prod.fst) :
      WordFault statements line (.unknownDestination line.number dest)
  /-- Only the condition has no mnemonic. -/
  | condition {dest : Option String} {comp jump : String}
      (computes : Command.ofTokens line.tokens = .ok (.compute dest comp (some jump)))
      (known : comp ∈ compTable.map Prod.fst)
      (stored : ∀ name ∈ dest, name ∈ destTable.map Prod.fst)
      (unknown : jump ∉ jumpTable.map Prod.fst) :
      WordFault statements line (.unknownJump line.number jump)

theorem WordFault.line? {statements : List Statement} {line : Line} {error : Error}
    (h : WordFault statements line error) : error.line? = some line.number := by
  cases h <;> rfl

/-! ## Lines that are read -/

theorem Line.Reads.holdsInstruction {line : Line} {statement : Statement}
    (h : line.Reads statement) : line.holdsInstruction = statement.command.isInstruction := by
  rw [Line.holdsInstruction, h.2]

/-- The lines that hold instructions stand at the side of the instructions. -/
theorem Line.forall₂_instructions {lines : List Line} {statements : List Statement}
    (h : List.Forall₂ Line.Reads lines statements) :
    List.Forall₂ Line.Reads (lines.filter Line.holdsInstruction)
      (Statement.instructions statements) := by
  refine List.rel_filter (fun line statement hline => ?_) h
  show line.holdsInstruction = true ↔ statement.command.isInstruction = true
  rw [hline.holdsInstruction]

theorem Line.instructionCount_of_reads {lines : List Line} {statements : List Statement}
    (h : List.Forall₂ Line.Reads lines statements) :
    Line.instructionCount lines = (Statement.instructions statements).length := by
  rw [instructionCount, List.countP_eq_length_filter, (forall₂_instructions h).length_eq]

end HackAssembler
