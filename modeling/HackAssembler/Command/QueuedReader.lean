/-
  HackAssembler.Command.QueuedReader

  The reader with the tokens of its line in a queue. Every part of a command takes its tokens from
  the front of the queue and looks at most one token ahead. A refusal leaves the rest of the line
  in the queue, where the next call clears it away.
-/
import HackAssembler.Command.Reader

namespace HackAssembler

/-- The state of reading a source command by command, with a queue of tokens. -/
structure QueuedReader where
  /-- The lines that are still to be read. -/
  pending : List Line
  /-- The tokens of the line read last that are not taken yet. -/
  tokens : List Token := []
  /-- The number of the line read last, or 0 before the first. -/
  line : Nat := 0
  /-- The command of the line read last, if it had one. -/
  command : Option Command := none
  /-- What was logged since the call began. -/
  log : List Event := []

namespace QueuedReader

/-- A reader at the beginning of a source. -/
def ofSource (source : String) : QueuedReader :=
  { pending := Line.ofSource source }

/-- What there is of a reader besides its queue. -/
def toReader (reader : QueuedReader) : Reader :=
  ⟨reader.pending, reader.line, reader.command⟩

/-- A part of the work on a line. An error keeps the state in which it arose. -/
abbrev Step := EStateM Error QueuedReader

namespace Step

variable {α : Type}

/-! ## The queue -/

/-- Takes the first token. -/
def consume : Step (Option Token) :=
  modifyGet fun reader => (reader.tokens.head?, { reader with tokens := reader.tokens.tail })

/-- Tells whether an operator comes first. -/
def nextIs (op : Operator) : Step Bool := do
  return (← get).tokens.head? = some (.operator op)

/-- Logs an event. -/
def tell (event : Event) : Step Unit :=
  modify fun reader => { reader with log := reader.log ++ [event] }

/-- Refuses the line. -/
def refuse (fault : SyntaxFault) : Step α := do
  throw (.malformed (← get).line fault.message)

/-! ## The parts of a command -/

/-- A number or an identifier. -/
def operand (what : Expectation) : Step String := do
  match ← consume with
  | some (.number digits) => return digits
  | some (.identifier name) => return name
  | found => refuse (.expected what found)

/-- The symbol after `@`. -/
def address : Step Command := do
  return .address (← operand .address)

/-- The name after `(`, and a closing `)` if there is one. -/
def label : Step Command := do
  match ← consume with
  | some (.identifier name) =>
    if ← nextIs .closeParen then
      let _ ← consume
    else
      tell (.unclosedLabel name (← get).line)
    return .label name
  | found => refuse (.expected .labelName found)

/-- The destination, if an `=` comes behind the token `first`, with the first token of the
    computation. -/
def dest (first : Token) : Step (Option String × Token) := do
  if ← nextIs .assign then
    let _ ← consume
    match first with
    | .identifier name =>
      match ← consume with
      | some start => return (some name, start)
      | none => refuse (.expected .computation none)
    | token => refuse (.expected .destination (some token))
  else
    return (none, first)

/-- What may follow the first operand of a computation: an operator and a second operand. -/
def secondOperand (first : String) : Step String := do
  match (← get).tokens.head? with
  | some (.operator op) =>
    if op = .semicolon then
      return first
    else
      let _ ← consume
      return first.push op.toChar ++ (← operand .binaryOperand)
  | _ => return first

/-- The computation that begins with the token `start`. -/
def comp : Token → Step String
  | .operator .minus => return Operator.minus.toChar.toString ++ (← operand .unaryOperand)
  | .operator .bang => return Operator.bang.toChar.toString ++ (← operand .unaryOperand)
  | .number digits => secondOperand digits
  | .identifier name => secondOperand name
  | token => refuse (.expected .computation (some token))

/-- The condition, if there is a `;`. -/
def jump : Step (Option String) := do
  if ← nextIs .semicolon then
    let _ ← consume
    match ← consume with
    | some (.identifier name) => return some name
    | found => refuse (.expected .jumpCondition found)
  else
    return none

/-- A whole computation, from its first token on. -/
def compute (first : Token) : Step Command := do
  let (dest, start) ← dest first
  let comp ← comp start
  let jump ← jump
  return .compute dest comp jump

/-- A command of the kind that its first token announces. -/
def command : Token → Step Command
  | .operator .atSign => address
  | .operator .openParen => label
  | first => compute first

/-- The end of the line. -/
def lineEnd : Step Unit := do
  match ← consume with
  | some token => refuse (.unexpected token)
  | none => return ()

/-! ## A line -/

/-- The command that begins with the token `first`, which has to use up the line. -/
def wholeLine (first : Token) : Step Bool := do
  let command ← command first
  lineEnd
  modify fun reader => { reader with command := some command }
  return true

/-- The command that the tokens in the queue form. Tells whether there were any. -/
def readTokens : Step Bool := do
  match (← get).tokens.find? Token.isInvalid with
  | some token => refuse (.invalid token)
  | none =>
    match ← consume with
    | some first => wholeLine first
    | none =>
      tell (.emptyCommand (← get).line)
      return false

/-- Clears away what is left of the last line and reads the next one. -/
def nextLine : Step Bool := do
  modify fun reader => { reader with command := none, tokens := [] }
  match (← get).pending with
  | [] => return false
  | line :: pending =>
    modify fun reader =>
      { reader with pending := pending, line := line.number, tokens := line.tokens }
    readTokens

end Step

/-- Reads the next line. The report tells whether there was a command on it. -/
def advance (reader : QueuedReader) : Report Bool × QueuedReader :=
  match Step.nextLine.run { reader with log := [] } with
  | .ok found reader => (⟨reader.log, .ok found⟩, reader)
  | .error error reader => (⟨reader.log, .error error⟩, reader)

end QueuedReader

end HackAssembler
