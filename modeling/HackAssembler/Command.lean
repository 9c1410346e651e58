/-
  HackAssembler.Command

  The commands of the assembly language, one per line: `@21` and `@LOOP` load a number or the
  address of a symbol, `D=M+1;JGT` computes, stores and jumps, and `(LOOP)` names the place of the
  next instruction. Fields keep the text they were written with; what a mnemonic means is decided
  when the command is encoded.
-/

namespace HackAssembler

/-- One line of a program. -/
inductive Command where
  /-- Loads a number, or the address that a symbol stands for. -/
  | address (symbol : String)
  /-- Computes a value, stores it if there is a destination, and jumps if there is a condition
      and the value meets it. -/
  | compute (dest : Option String) (comp : String) (jump : Option String)
  /-- Names the address of the instruction that follows. -/
  | label (name : String)
deriving DecidableEq, Repr

namespace Command

/-! ## Fields -/

/-- The symbol of an address or a label. -/
def symbol? : Command → Option String
  | address symbol => some symbol
  | compute .. => none
  | label name => some name

/-- The destination of a computation that has one. -/
def dest? : Command → Option String
  | compute dest _ _ => dest
  | _ => none

/-- The expression of a computation. -/
def comp? : Command → Option String
  | compute _ comp _ => some comp
  | _ => none

/-- The condition of a computation that may jump. -/
def jump? : Command → Option String
  | compute _ _ jump => jump
  | _ => none

/-- Tells whether a command takes a word of the program; a label takes none. -/
def isInstruction : Command → Bool
  | label _ => false
  | _ => true

/-! ## Text -/

/-- The command without blanks, as it may stand in a source. An empty destination or condition is
    not the same as none: it still shows its `=` or `;`. -/
def text : Command → String
  | address symbol => "@" ++ symbol
  | label name => "(" ++ name ++ ")"
  | compute dest comp jump =>
    (match dest with
      | some dest => dest ++ "="
      | none => "")
    ++ comp ++
    (match jump with
      | some jump => ";" ++ jump
      | none => "")

end Command

end HackAssembler
