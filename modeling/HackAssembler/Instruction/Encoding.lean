/-
  HackAssembler.Instruction.Encoding

  From the fields of a command to a machine word. The computation is looked up first, then the
  destination, then the jump condition, and the first that has no entry is the one reported. A
  field that is absent counts as the empty mnemonic.
-/
import HackAssembler.Binary
import HackAssembler.Instruction

namespace HackAssembler

/-! ## Refusals -/

/-- Why something has no binary form. -/
inductive EncodeFault where
  | unknownComputation (comp : String)
  | unknownDestination (dest : String)
  | unknownJump (jump : String)
  /-- The number `value` needs more than `width` bits. -/
  | outOfRange (value width : Nat)
deriving DecidableEq, Repr

/-- The wording of a refusal. -/
def EncodeFault.message : EncodeFault → String
  | unknownComputation comp => s!"unknown computation `{comp}`"
  | unknownDestination dest => s!"unknown destination `{dest}`"
  | unknownJump jump => s!"unknown jump condition `{jump}`"
  | outOfRange value width => s!"{value} does not fit in {width} bits"

namespace Instruction

/-! ## Numbers -/

/-- A number as a field of `width` bits, if it fits. -/
def fit (value width : Nat) : Except EncodeFault (BitVec width) :=
  match Binary.field? width value with
  | some field => .ok field
  | none => .error (.outOfRange value width)

/-- The digits of a number in a field of `width` bits, if it fits. -/
def toBits (value width : Nat) : Except EncodeFault String := do
  return Binary.text (← fit value width)

/-! ## Mnemonics -/

/-- The field of a computation. -/
def compField (comp : String) : Except EncodeFault (BitVec 7) :=
  match compTable.lookup comp with
  | some field => .ok field
  | none => .error (.unknownComputation comp)

/-- The field of a destination. -/
def destField (dest : String) : Except EncodeFault (BitVec 3) :=
  match destTable.lookup dest with
  | some field => .ok field
  | none => .error (.unknownDestination dest)

/-- The field of a jump condition. -/
def jumpField (jump : String) : Except EncodeFault (BitVec 3) :=
  match jumpTable.lookup jump with
  | some field => .ok field
  | none => .error (.unknownJump jump)

/-! ## Words -/

/-- The instruction that loads a number. -/
def load (value : Nat) : Except EncodeFault MachineWord := do
  return 0b0#1 ++ (← fit value 15)

/-- The instruction that computes, stores and jumps. -/
def compute (dest : Option String) (comp : String) (jump : Option String) :
    Except EncodeFault MachineWord := do
  let comp ← compField comp
  let dest ← destField (dest.getD "")
  let jump ← jumpField (jump.getD "")
  return 0b111#3 ++ comp ++ dest ++ jump

end Instruction

end HackAssembler
