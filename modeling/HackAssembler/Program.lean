/-
  HackAssembler.Program

  Assembled programs: the words of the program memory with the commands they come from, and the
  addresses of all symbols.
-/
import HackAssembler.Binary
import HackAssembler.Command
import HackAssembler.Instruction
import HackAssembler.SymbolTable

namespace HackAssembler

/-- A word of an assembled program. -/
structure Word where
  /-- The place of the word in the program memory. -/
  address : Nat
  /-- The source line that the word comes from. -/
  line : Nat
  command : Command
  bits : MachineWord
deriving DecidableEq, Repr

/-- The digits of a word, as they stand in an output file. -/
def Word.bitText (word : Word) : String :=
  Binary.text word.bits

/-- The result of assembling a source. -/
structure Program where
  /-- The words by their addresses. -/
  words : List Word
  symbols : SymbolTable

/-- The output file of a program: the digits of each word on a line of its own. -/
def Program.toText (program : Program) : String :=
  String.join (program.words.map fun word => word.bitText.push '\n')

end HackAssembler
