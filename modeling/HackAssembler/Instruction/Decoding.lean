/-
  HackAssembler.Instruction.Decoding

  From machine words back to commands. A word that begins with 0 loads a number; a word that begins
  with 111 computes if its field is that of a computation; no other word is an instruction. The
  commands that come out name no symbols.
-/
import HackAssembler.Command
import HackAssembler.Instruction

namespace HackAssembler.Instruction

/-! ## Fields of a word -/

/-- The number that a word loads. -/
def loadedValue (word : MachineWord) : BitVec 15 := word.extractLsb' 0 15

/-- The field that chooses the computation. -/
def compBits (word : MachineWord) : BitVec 7 := word.extractLsb' 6 7

/-- The field that chooses the destination. -/
def destBits (word : MachineWord) : BitVec 3 := word.extractLsb' 3 3

/-- The field that chooses the jump condition. -/
def jumpBits (word : MachineWord) : BitVec 3 := word.extractLsb' 0 3

/-! ## Mnemonics of fields -/

/-- The mnemonic of a field in a table. -/
def mnemonic? {width : Nat} (table : List (String × BitVec width)) (field : BitVec width) :
    Option String :=
  (table.find? fun entry => entry.2 == field).map Prod.fst

/-- A mnemonic as a part of a command: the empty one is left out. -/
def partOf (mnemonic : String) : Option String :=
  if mnemonic = "" then none else some mnemonic

/-! ## Decoding -/

/-- The command that a word encodes, if it is an instruction. -/
def decode? (word : MachineWord) : Option Command :=
  if word.msb = false then
    some (.address (toString (loadedValue word).toNat))
  else if word.extractLsb' 13 3 = 0b111 then do
    let comp ← mnemonic? compTable (compBits word)
    let dest ← mnemonic? destTable (destBits word)
    let jump ← mnemonic? jumpTable (jumpBits word)
    return .compute (partOf dest) comp (partOf jump)
  else
    none

end HackAssembler.Instruction
