/-
  HackAssembler.Text.Decimal

  Decimal numerals: texts of the digits `0` to `9`, of any length and with any number of leading
  zeros.
-/

namespace HackAssembler.Text

/-- Tells whether a text holds nothing but decimal digits. -/
def isDecimal (text : String) : Bool :=
  text.toList.all Char.isDigit

/-- The number that decimal digits stand for. -/
def decimalValue (digits : List Char) : Nat :=
  digits.foldl (fun value c => 10 * value + (c.toNat - '0'.toNat)) 0

/-- The number that a text stands for, if it is a numeral. A text without digits is none. -/
def readDecimal? (text : String) : Option Nat :=
  if text ≠ "" ∧ isDecimal text then some (decimalValue text.toList) else none

/-! ## Lemmas -/

/-- Another digit at the end makes the number ten times as large and adds its own value. -/
theorem decimalValue_append_singleton (digits : List Char) (c : Char) :
    decimalValue (digits ++ [c]) = 10 * decimalValue digits + (c.toNat - '0'.toNat) := by
  simp [decimalValue]

end HackAssembler.Text
