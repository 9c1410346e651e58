/-
  HackAssembler.Event

  What the assembler tells about its work: one constructor per kind of log entry. An event has a
  level, which decides who sees it, a target, which names the part of the program that speaks, and
  a message.
-/
import HackAssembler.Error
import HackAssembler.SymbolTable

namespace HackAssembler

/-! ## Levels -/

/-- How important an event is. -/
inductive Level where
  | error
  | warn
  | info
  | debug
deriving DecidableEq, Repr

namespace Level

/-- The name of a level in a log. -/
def name : Level → String
  | error => "ERROR"
  | warn => "WARN"
  | info => "INFO"
  | debug => "DEBUG"

/-- The place of a level, the most important first. -/
def rank : Level → Nat
  | error => 0
  | warn => 1
  | info => 2
  | debug => 3

end Level

/-! ## Events -/

/-- Something that the assembler logs. -/
inductive Event where
  /-- A line came without tokens. -/
  | emptyCommand (line : Nat)
  /-- A label has no `)`. -/
  | unclosedLabel (name : String) (line : Nat)
  | collectingLabels
  /-- A label got an address for a name that had none. -/
  | labelBound (name : String) (address : Address)
  /-- A label got an address for a name that had one already. -/
  | labelRebound (name : String) (line : Nat) (previous address : Address)
  | emittingCode
  /-- A variable got its address. -/
  | variableBound (name : String) (address : Address)
  /-- The program is complete. -/
  | assembled (instructions symbols : Nat)
  /-- The output goes to a path where something is already. -/
  | overwriting (path : Path)
  /-- The output goes to a free path. -/
  | creating (path : Path)
  /-- The command line was understood. -/
  | arguments (verbosity : Level) (output : Option Path) (input : Path)
  /-- The command line has to end without output. -/
  | failed (input : Path) (error : Error)
  /-- The output was written. -/
  | wrote (words : Nat) (path : Path)
deriving DecidableEq, Repr

namespace Event

def level : Event → Level
  | emptyCommand _ => .warn
  | unclosedLabel .. => .warn
  | collectingLabels => .debug
  | labelBound .. => .debug
  | labelRebound .. => .debug
  | emittingCode => .debug
  | variableBound .. => .debug
  | assembled .. => .info
  | overwriting _ => .warn
  | creating _ => .info
  | arguments .. => .debug
  | failed .. => .error
  | wrote .. => .info

/-- The part of the program that an event comes from, as logs name it. -/
def target : Event → String
  | emptyCommand _ => "hasm::assembler::parser"
  | unclosedLabel .. => "hasm::assembler::parser"
  | collectingLabels => "hasm::assembler::passes"
  | labelBound .. => "hasm::assembler::passes"
  | labelRebound .. => "hasm::assembler::passes"
  | emittingCode => "hasm::assembler::passes"
  | variableBound .. => "hasm::assembler::passes"
  | assembled .. => "hasm::assembler::passes"
  | overwriting _ => "hasm::assembler::passes"
  | creating _ => "hasm::assembler::passes"
  | arguments .. => "hasm"
  | failed .. => "hasm"
  | wrote .. => "hasm"

/-- The wording of an event. -/
def message : Event → String
  | emptyCommand line => s!"lexer returned an empty command on line {line}"
  | unclosedLabel name line => s!"label `{name}` on line {line} is missing its closing `)`"
  | collectingLabels => "pass 1: collecting labels"
  | labelBound name address => s!"label `{name}` = {address.toNat}"
  | labelRebound name line previous address =>
    s!"label `{name}` on line {line} rebinds {previous.toNat} to {address.toNat}"
  | emittingCode => "pass 2: emitting code"
  | variableBound name address => s!"variable `{name}` = {address.toNat}"
  | assembled instructions symbols =>
    s!"assembled {instructions} instruction(s), {symbols} symbol(s)"
  | overwriting path => s!"`{path}` already exists and will be overwritten"
  | creating path => s!"creating `{path}`"
  | arguments verbosity output input =>
    s!"Arguments:\n\tVerbosity: {verbosity.name}\n\tOutfile: "
      ++ (match output with
        | some path => path.text
        | none => "None")
      ++ s!"\n\tInfile: {input}"
  | failed input error => s!"fatal: unable to assemble `{input}`: {error.message}"
  | wrote words path => s!"wrote {words} word(s) to `{path}`"

/-- Tells whether an event is seen by someone who asks for events up to a level. -/
def isVisible (threshold : Level) (event : Event) : Bool :=
  event.level.rank ≤ threshold.rank

end Event

end HackAssembler
