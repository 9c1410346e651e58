/-
  HackAssembler.Token

  The words of the assembly language: numbers, identifiers, the ten operators, and the text that
  is none of these. A token keeps the text it was written with, so `Token.text` gives back what
  stood in the source.

  The four classes are told apart by the first character alone: a digit, an operator, a letter or
  one of `_ . $ :`, and anything else that is not blank.
-/

namespace HackAssembler

/-! ## Operators -/

/-- The characters that are tokens by themselves. -/
inductive Operator where
  | assign
  | semicolon
  | openParen
  | closeParen
  | atSign
  | plus
  | minus
  | ampersand
  | bar
  | bang
deriving DecidableEq, Repr

namespace Operator

/-- The character an operator is written with. -/
def toChar : Operator → Char
  | assign => '='
  | semicolon => ';'
  | openParen => '('
  | closeParen => ')'
  | atSign => '@'
  | plus => '+'
  | minus => '-'
  | ampersand => '&'
  | bar => '|'
  | bang => '!'

/-- The operator a character stands for, if it stands for one. -/
def ofChar? (c : Char) : Option Operator :=
  match c with
  | '=' => some assign
  | ';' => some semicolon
  | '(' => some openParen
  | ')' => some closeParen
  | '@' => some atSign
  | '+' => some plus
  | '-' => some minus
  | '&' => some ampersand
  | '|' => some bar
  | '!' => some bang
  | _ => none

@[simp] theorem ofChar?_toChar (op : Operator) : ofChar? op.toChar = some op := by
  cases op <;> rfl

theorem ofChar?_eq_some_iff {c : Char} {op : Operator} : ofChar? c = some op ↔ c = op.toChar := by
  constructor
  · intro h
    unfold ofChar? at h
    split at h <;> first | cases h; rfl | contradiction
  · rintro rfl
    exact ofChar?_toChar op

end Operator

/-! ## Characters of identifiers -/

/-- The letters, and the marks `_ . $ :`, with which an identifier may begin. Letters are those
    of ASCII only. -/
def isIdentifierStart (c : Char) : Bool :=
  c.isAlpha || c == '_' || c == '.' || c == '$' || c == ':'

/-- The characters of which an identifier may consist after its first. -/
def isIdentifierChar (c : Char) : Bool :=
  isIdentifierStart c || c.isDigit

/-! ## Tokens -/

/-- A word of a source line. -/
inductive Token where
  /-- A run of decimal digits. -/
  | number (digits : String)
  /-- A name or a mnemonic. -/
  | identifier (name : String)
  | operator (op : Operator)
  /-- A run of characters that no other token may hold. -/
  | invalid (text : String)
deriving DecidableEq, Repr

namespace Token

/-- What was written in the source. -/
def text : Token → String
  | number digits => digits
  | identifier name => name
  | operator op => op.toChar.toString
  | invalid text => text

def isInvalid : Token → Bool
  | invalid _ => true
  | _ => false

end Token

end HackAssembler
