/-
  HackAssembler.Text.Fields

  The fields of a text: what stands between its blanks, as far as there is anything. A visible
  character is one of ASCII that is not blank and takes one column when it is printed.
-/
import HackAssembler.Text.Blank

namespace HackAssembler.Text

/-- The pieces between the blanks of a text that are not empty, in order. -/
def fields (text : List Char) : List (List Char) :=
  (text.splitOnP isBlank).filter (· ≠ [])

/-- Tells whether a character is visible. -/
def isVisible (c : Char) : Bool :=
  0x21 ≤ c.toNat && c.toNat ≤ 0x7E

end HackAssembler.Text
