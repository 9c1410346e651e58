/-
  HackAssembler.Command.Grammar

  Reading the tokens of a line as a command.

      command  ::=  "@" operand
                 |  "(" identifier [ ")" ]
                 |  [ identifier "=" ] comp [ ";" identifier ]
      comp     ::=  ( "-" | "!" ) operand
                 |  operand [ op operand ]          op: any operator except ";"
      operand  ::=  number | identifier

  A line with an invalid token is refused before the grammar is looked at, and a command has to
  use up its line. The text of a refusal is settled here; the line it stands on is added by whoever
  reads lines.
-/
import HackAssembler.Token
import HackAssembler.Command

namespace HackAssembler

/-! ## Refusals -/

/-- What the grammar has a place for. -/
inductive Expectation where
  | address
  | labelName
  | destination
  | computation
  | unaryOperand
  | binaryOperand
  | jumpCondition
deriving DecidableEq, Repr

/-- Names what is expected. -/
def Expectation.describe : Expectation → String
  | address => "an address or symbol after `@`"
  | labelName => "a label name after `(`"
  | destination => "a destination before `=`"
  | computation => "a computation"
  | unaryOperand => "an operand after a unary operator"
  | binaryOperand => "an operand after a binary operator"
  | jumpCondition => "a jump condition after `;`"

/-- Why the tokens of a line are no command. -/
inductive SyntaxFault where
  /-- The line holds a token that belongs to no class. -/
  | invalid (token : Token)
  /-- Something else, or the end of the line, stands where `what` is due. -/
  | expected (what : Expectation) (found : Option Token)
  /-- The line goes on after its command. -/
  | unexpected (token : Token)
deriving DecidableEq, Repr

/-- The wording of a refusal. A line that ends where a computation is due ends with `=`. -/
def SyntaxFault.message : SyntaxFault → String
  | invalid token => s!"invalid token `{token.text}`"
  | expected .computation none => "expected a computation after `=`"
  | expected what none => s!"expected {what.describe}"
  | expected what (some token) => s!"expected {what.describe}, found `{token.text}`"
  | unexpected token => s!"unexpected `{token.text}` after command"

namespace Command

/-! ## The parts of a command

Each part reads the front of a token list and returns what is left. -/

/-- A number or an identifier. -/
def takeOperand (what : Expectation) : List Token → Except SyntaxFault (String × List Token)
  | .number digits :: rest => .ok (digits, rest)
  | .identifier name :: rest => .ok (name, rest)
  | tokens => .error (.expected what tokens.head?)

/-- The symbol after `@`. -/
def takeAddress (tokens : List Token) : Except SyntaxFault (Command × List Token) := do
  let (symbol, rest) ← takeOperand .address tokens
  return (address symbol, rest)

/-- The name after `(`, and a closing `)` if there is one. -/
def takeLabel : List Token → Except SyntaxFault (Command × List Token)
  | .identifier name :: .operator .closeParen :: rest => .ok (label name, rest)
  | .identifier name :: rest => .ok (label name, rest)
  | tokens => .error (.expected .labelName tokens.head?)

/-- The destination, if the second token is `=`. -/
def takeDest : List Token → Except SyntaxFault (Option String × List Token)
  | .identifier dest :: .operator .assign :: rest => .ok (some dest, rest)
  | token :: .operator .assign :: _ => .error (.expected .destination (some token))
  | tokens => .ok (none, tokens)

/-- What may follow the first operand of a computation: an operator and a second operand. -/
def takeSecondOperand (first : String) :
    List Token → Except SyntaxFault (String × List Token)
  | .operator .semicolon :: rest => .ok (first, .operator .semicolon :: rest)
  | .operator op :: rest => do
    let (second, rest) ← takeOperand .binaryOperand rest
    return (first.push op.toChar ++ second, rest)
  | tokens => .ok (first, tokens)

/-- The computation: one operand, a unary operator with its operand, or two operands around an
    operator. -/
def takeComp : List Token → Except SyntaxFault (String × List Token)
  | .operator .minus :: rest => takeUnary .minus rest
  | .operator .bang :: rest => takeUnary .bang rest
  | .number digits :: rest => takeSecondOperand digits rest
  | .identifier name :: rest => takeSecondOperand name rest
  | tokens => .error (.expected .computation tokens.head?)
where
  /-- The operand of the unary operator `op`, with the operator in front. -/
  takeUnary (op : Operator) (tokens : List Token) :
      Except SyntaxFault (String × List Token) := do
    let (operand, rest) ← takeOperand .unaryOperand tokens
    return (op.toChar.toString ++ operand, rest)

/-- The condition, if there is a `;`. -/
def takeJump : List Token → Except SyntaxFault (Option String × List Token)
  | .operator .semicolon :: .identifier jump :: rest => .ok (some jump, rest)
  | .operator .semicolon :: rest => .error (.expected .jumpCondition rest.head?)
  | tokens => .ok (none, tokens)

/-- A whole computation with its destination and condition. -/
def takeCompute (tokens : List Token) : Except SyntaxFault (Command × List Token) := do
  let (dest, tokens) ← takeDest tokens
  let (comp, tokens) ← takeComp tokens
  let (jump, tokens) ← takeJump tokens
  return (compute dest comp jump, tokens)

/-- A command of the kind that the first token announces. -/
def takeCommand : List Token → Except SyntaxFault (Command × List Token)
  | .operator .atSign :: rest => takeAddress rest
  | .operator .openParen :: rest => takeLabel rest
  | tokens => takeCompute tokens

/-! ## A line -/

/-- The command that the tokens of a line form. -/
def ofTokens (tokens : List Token) : Except SyntaxFault Command :=
  match tokens.find? Token.isInvalid with
  | some token => .error (.invalid token)
  | none =>
    match takeCommand tokens with
    | .error fault => .error fault
    | .ok (command, []) => .ok command
    | .ok (_, token :: _) => .error (.unexpected token)

/-- The name of a label that lacks its `)`. The name counts as soon as it is read, even if the
    line is refused for what comes after it. -/
def unclosedLabel? (tokens : List Token) : Option String :=
  if tokens.any Token.isInvalid then none
  else
    match tokens with
    | .operator .openParen :: .identifier _ :: .operator .closeParen :: _ => none
    | .operator .openParen :: .identifier name :: _ => some name
    | _ => none

end Command

end HackAssembler
