/-
  HackAssembler.Error

  Why a program could not be assembled. Every error but those of files stands on a source line.
-/
import HackAssembler.FileSystem
import HackAssembler.Instruction.Encoding

namespace HackAssembler

/-- Why assembling ended without a program. -/
inductive Error where
  /-- The source file could not be read. -/
  | sourceRead (path : Path) (fault : FileFault)
  /-- The tokens of a line form no command. -/
  | malformed (line : Nat) (message : String)
  | unknownComputation (line : Nat) (comp : String)
  | unknownDestination (line : Nat) (dest : String)
  | unknownJump (line : Nat) (jump : String)
  /-- A number is too large for an address; `value` is its decimal text. -/
  | addressRange (line : Nat) (value : String)
  /-- A symbol has no address. -/
  | unresolved (line : Nat) (symbol : String)
  /-- The output file could not be written. -/
  | outputWrite (path : Path) (fault : FileFault)
deriving DecidableEq, Repr

namespace Error

/-- The source line that an error stands on. -/
def line? : Error → Option Nat
  | sourceRead .. => none
  | malformed line _ => some line
  | unknownComputation line _ => some line
  | unknownDestination line _ => some line
  | unknownJump line _ => some line
  | addressRange line _ => some line
  | unresolved line _ => some line
  | outputWrite .. => none

/-- The wording of an error. -/
def message : Error → String
  | sourceRead path fault => s!"unable to read source file `{path}`: {fault.message}"
  | malformed line message => s!"syntax error on line {line}: {message}"
  | unknownComputation line comp => s!"unknown computation `{comp}` on line {line}"
  | unknownDestination line dest => s!"unknown destination `{dest}` on line {line}"
  | unknownJump line jump => s!"unknown jump condition `{jump}` on line {line}"
  | addressRange line value =>
    s!"address `{value}` on line {line} does not fit in 15 bits (max {Instruction.maxAddress})"
  | unresolved line symbol => s!"unresolved symbol `{symbol}` on line {line}"
  | outputWrite path fault => s!"unable to write output file `{path}`: {fault.message}"

/-- The error of a command on a line that has no binary form. -/
def ofEncodeFault (line : Nat) : EncodeFault → Error
  | .unknownComputation comp => unknownComputation line comp
  | .unknownDestination dest => unknownDestination line dest
  | .unknownJump jump => unknownJump line jump
  | .outOfRange value _ => addressRange line (toString value)

end Error

end HackAssembler
