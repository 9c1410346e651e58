/-
  HackAssembler.Machine

  What the machine does with a computation: the arithmetic unit with its six control bits, the
  registers that take the result, and the test that decides about a jump. Beside the bits stands
  what the mnemonics say: the value of an expression over the registers, the registers that a
  destination names, and the comparison that a jump condition names.
-/
import HackAssembler.Instruction

namespace HackAssembler.Machine

/-! ## Registers -/

/-- What a computation can see: the two registers, and the memory cell that `A` points to. -/
structure Registers where
  a : BitVec 16
  d : BitVec 16
  m : BitVec 16

/-! ## The arithmetic unit -/

/-- The control bits of the arithmetic unit. -/
structure Control where
  /-- The first input is taken as zero. -/
  zeroX : Bool
  /-- The first input is inverted. -/
  negateX : Bool
  /-- The second input is taken as zero. -/
  zeroY : Bool
  /-- The second input is inverted. -/
  negateY : Bool
  /-- The inputs are added; otherwise they are combined by "and". -/
  add : Bool
  /-- The output is inverted. -/
  negateOut : Bool

/-- An input after it was zeroed and inverted as the control bits ask. -/
def Control.condition (zero negate : Bool) (input : BitVec 16) : BitVec 16 :=
  let input := if zero then 0 else input
  if negate then ~~~input else input

/-- The output of the arithmetic unit. -/
def Control.output (control : Control) (x y : BitVec 16) : BitVec 16 :=
  let x := condition control.zeroX control.negateX x
  let y := condition control.zeroY control.negateY y
  let out := if control.add then x + y else x &&& y
  if control.negateOut then ~~~out else out

/-- The control bits in the field of a computation, behind the bit that chooses its second
    input. -/
def Control.ofField (field : BitVec 7) : Control where
  zeroX := field.getLsbD 5
  negateX := field.getLsbD 4
  zeroY := field.getLsbD 3
  negateY := field.getLsbD 2
  add := field.getLsbD 1
  negateOut := field.getLsbD 0

/-- Tells whether the second input is the memory cell instead of the register `A`. -/
def usesMemory (field : BitVec 7) : Bool :=
  field.getLsbD 6

/-- The value that a field computes. -/
def compute (field : BitVec 7) (registers : Registers) : BitVec 16 :=
  (Control.ofField field).output registers.d
    (if usesMemory field then registers.m else registers.a)

/-- Tells whether a field asks for a jump when the value of the computation, as a signed number,
    is below, equal to or above zero. -/
def jumps (field : BitVec 3) (value : BitVec 16) : Bool :=
  (field.getLsbD 2 && value.toInt < 0)
    || (field.getLsbD 1 && value.toInt == 0)
    || (field.getLsbD 0 && 0 < value.toInt)

/-! ## What mnemonics say -/

/-- The value of a single letter or digit of an expression. -/
def atom? (registers : Registers) : Char → Option (BitVec 16)
  | '0' => some 0
  | '1' => some 1
  | 'A' => some registers.a
  | 'D' => some registers.d
  | 'M' => some registers.m
  | _ => none

/-- The value of an expression: an atom, a sign or `!` before an atom, or an operator between two
    atoms. Arithmetic is that of 16-bit words. -/
def expression? (registers : Registers) : List Char → Option (BitVec 16)
  | [x] => atom? registers x
  | ['-', x] => return -(← atom? registers x)
  | ['!', x] => return ~~~(← atom? registers x)
  | [x, '+', y] => return (← atom? registers x) + (← atom? registers y)
  | [x, '-', y] => return (← atom? registers x) - (← atom? registers y)
  | [x, '&', y] => return (← atom? registers x) &&& (← atom? registers y)
  | [x, '|', y] => return (← atom? registers x) ||| (← atom? registers y)
  | _ => none

/-- The comparison with zero that a jump condition names; the empty one never holds. -/
def comparison? : String → Option (Int → Bool)
  | "" => some fun _ => false
  | "JGT" => some fun value => 0 < value
  | "JEQ" => some fun value => value == 0
  | "JGE" => some fun value => 0 ≤ value
  | "JLT" => some fun value => value < 0
  | "JNE" => some fun value => value != 0
  | "JLE" => some fun value => value ≤ 0
  | "JMP" => some fun _ => true
  | _ => none

end HackAssembler.Machine
