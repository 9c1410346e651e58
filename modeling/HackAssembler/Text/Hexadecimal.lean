/-
  HackAssembler.Text.Hexadecimal

  Hexadecimal numerals: texts of the digits `0` to `9` and the capital letters `A` to `F`.
-/

namespace HackAssembler.Text

/-- Tells whether a character is a hexadecimal digit. Small letters are none. -/
def isHexDigit (c : Char) : Bool :=
  c.isDigit || ('A' ≤ c && c ≤ 'F')

/-- The number that a hexadecimal digit stands for. -/
def hexDigitValue (c : Char) : Nat :=
  if c.isDigit then c.toNat - '0'.toNat else c.toNat - 'A'.toNat + 10

/-- The number that hexadecimal digits stand for. -/
def hexadecimalValue (digits : List Char) : Nat :=
  digits.foldl (fun value c => 16 * value + hexDigitValue c) 0

/-! ## Lemmas -/

/-- Another digit at the end makes the number sixteen times as large and adds its own value. -/
theorem hexadecimalValue_append_singleton (digits : List Char) (c : Char) :
    hexadecimalValue (digits ++ [c]) = 16 * hexadecimalValue digits + hexDigitValue c := by
  simp [hexadecimalValue]

/-- Leading zeros do not change the number. -/
theorem hexadecimalValue_replicate_append (count : Nat) (digits : List Char) :
    hexadecimalValue (List.replicate count '0' ++ digits) = hexadecimalValue digits := by
  induction count with
  | zero => rfl
  | succ count ih => rw [← ih]; rfl

end HackAssembler.Text
