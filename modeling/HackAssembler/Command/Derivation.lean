/-
  HackAssembler.Command.Derivation

  The grammar of commands as a relation between the tokens of a line and the command they form,
  without a reading order. An `=` right after the first token always belongs to a destination, so a
  computation without a destination cannot have it for an operator.
-/
import HackAssembler.Command
import HackAssembler.Token

namespace HackAssembler

/-- A number or an identifier, with its text. -/
inductive IsOperand : Token → String → Prop where
  | number (digits : String) : IsOperand (.number digits) digits
  | identifier (name : String) : IsOperand (.identifier name) name

/-- The tokens of a computation, with its text. The flag tells whether `=` may be its operator. -/
inductive IsComp (allowAssign : Bool) : List Token → String → Prop where
  | single {v : Token} {text : String} (operand : IsOperand v text) :
      IsComp allowAssign [v] text
  | unary {op : Operator} {v : Token} {text : String} (sign : op = .minus ∨ op = .bang)
      (operand : IsOperand v text) :
      IsComp allowAssign [.operator op, v] (op.toChar.toString ++ text)
  | binary {op : Operator} {v w : Token} {left right : String} (notSemicolon : op ≠ .semicolon)
      (assign : op = .assign → allowAssign = true) (first : IsOperand v left)
      (second : IsOperand w right) :
      IsComp allowAssign [v, .operator op, w] (left ++ op.toChar.toString ++ right)

/-- The tokens of a jump condition with its `;`, or none. -/
inductive IsJump : List Token → Option String → Prop where
  | none : IsJump [] none
  | some (jump : String) : IsJump [.operator .semicolon, .identifier jump] (some jump)

/-- The tokens of a line that form a command. -/
inductive Derives : List Token → Command → Prop where
  | address {v : Token} {symbol : String} (operand : IsOperand v symbol) :
      Derives [.operator .atSign, v] (.address symbol)
  | openLabel (name : String) :
      Derives [.operator .openParen, .identifier name] (.label name)
  | label (name : String) :
      Derives [.operator .openParen, .identifier name, .operator .closeParen] (.label name)
  | compute {tokens after : List Token} {comp : String} {jump : Option String}
      (computation : IsComp false tokens comp) (condition : IsJump after jump) :
      Derives (tokens ++ after) (.compute none comp jump)
  | assign {dest : String} {tokens after : List Token} {comp : String} {jump : Option String}
      (computation : IsComp true tokens comp) (condition : IsJump after jump) :
      Derives (.identifier dest :: .operator .assign :: (tokens ++ after))
        (.compute (some dest) comp jump)

/-- The tokens of a destination with its `=`, or none. -/
inductive IsDest : List Token → Option String → Prop where
  | none : IsDest [] none
  | some (dest : String) : IsDest [.identifier dest, .operator .assign] (some dest)

/-- A line cut into the parts of a command: a mark and what it introduces, or the destination, the
    computation and the condition, of which the first and the last may be empty. -/
inductive IsReading : List (List Token) → Command → Prop where
  | address {v : Token} {symbol : String} (operand : IsOperand v symbol) :
      IsReading [[.operator .atSign], [v]] (.address symbol)
  | openLabel (name : String) :
      IsReading [[.operator .openParen], [.identifier name]] (.label name)
  | label (name : String) :
      IsReading [[.operator .openParen], [.identifier name], [.operator .closeParen]]
        (.label name)
  | compute {before tokens after : List Token} {dest jump : Option String} {comp : String}
      (destination : IsDest before dest) (computation : IsComp dest.isSome tokens comp)
      (condition : IsJump after jump) :
      IsReading [before, tokens, after] (.compute dest comp jump)

end HackAssembler
