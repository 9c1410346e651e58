/-
  HackAssembler.Instruction

  The 16-bit instructions of the machine and their mnemonics.

      0vvv vvvv vvvv vvvv    load the 15-bit number v
      111a cccc ccdd djjj    compute by a and c, store by d, jump by j

  The three tables list every mnemonic once. Their second column is the field of the instruction.
-/

namespace HackAssembler

/-- A word of the program memory. -/
abbrev MachineWord := BitVec 16

namespace Instruction

/-- The largest number that an instruction can load. -/
def maxAddress : Nat := 0x7FFF

/-- The computations. The first bit of the field tells whether the second operand is the memory
    cell `M` or the register `A`. -/
def compTable : List (String × BitVec 7) :=
  [("0", 0b0101010), ("1", 0b0111111), ("-1", 0b0111010),
   ("D", 0b0001100), ("A", 0b0110000), ("!D", 0b0001101), ("!A", 0b0110001),
   ("-D", 0b0001111), ("-A", 0b0110011), ("D+1", 0b0011111), ("A+1", 0b0110111),
   ("D-1", 0b0001110), ("A-1", 0b0110010), ("D+A", 0b0000010), ("D-A", 0b0010011),
   ("A-D", 0b0000111), ("D&A", 0b0000000), ("D|A", 0b0010101),
   ("M", 0b1110000), ("!M", 0b1110001), ("-M", 0b1110011), ("M+1", 0b1110111),
   ("M-1", 0b1110010), ("D+M", 0b1000010), ("D-M", 0b1010011), ("M-D", 0b1000111),
   ("D&M", 0b1000000), ("D|M", 0b1010101)]

/-- The destinations: one bit each for `A`, `D` and `M`. -/
def destTable : List (String × BitVec 3) :=
  [("", 0b000), ("M", 0b001), ("D", 0b010), ("MD", 0b011),
   ("A", 0b100), ("AM", 0b101), ("AD", 0b110), ("AMD", 0b111)]

/-- The jump conditions: one bit each for a value below, equal to and above zero. -/
def jumpTable : List (String × BitVec 3) :=
  [("", 0b000), ("JGT", 0b001), ("JEQ", 0b010), ("JGE", 0b011),
   ("JLT", 0b100), ("JNE", 0b101), ("JLE", 0b110), ("JMP", 0b111)]

/-! ## The tables are one to one -/

theorem compTable_nodup :
    (compTable.map Prod.fst).Nodup ∧ (compTable.map Prod.snd).Nodup := by
  decide

theorem destTable_nodup :
    (destTable.map Prod.fst).Nodup ∧ (destTable.map Prod.snd).Nodup := by
  decide

theorem jumpTable_nodup :
    (jumpTable.map Prod.fst).Nodup ∧ (jumpTable.map Prod.snd).Nodup := by
  decide

end Instruction

end HackAssembler
