/-
  HackAssembler.Text.Blank

  Blank characters: the 25 characters with the Unicode property White_Space. They separate the
  tokens of a source line and stand for nothing themselves. A line feed is blank too, but it ends
  a line before blanks are looked at.

  The property has kept these members since Unicode 6.3, so the table needs no version beyond
  that.
-/

namespace HackAssembler.Text

/-! ## The table -/

/-- The closed ranges of code points with the property White_Space, ascending and apart. -/
def blankRanges : List (Nat × Nat) :=
  [(0x09, 0x0D), (0x20, 0x20), (0x85, 0x85), (0xA0, 0xA0), (0x1680, 0x1680), (0x2000, 0x200A),
   (0x2028, 0x2029), (0x202F, 0x202F), (0x205F, 0x205F), (0x3000, 0x3000)]

/-- Tells whether a character is blank. -/
def isBlank (c : Char) : Bool :=
  blankRanges.any fun r => r.1 ≤ c.toNat && c.toNat ≤ r.2

/-! ## What is in it -/

/-- No visible ASCII character is blank, so nothing that a token is made of is skipped. -/
theorem isBlank_eq_false {c : Char} (h : 0x21 ≤ c.toNat ∧ c.toNat ≤ 0x7E) :
    isBlank c = false := by
  simp [isBlank, blankRanges]
  omega

end HackAssembler.Text
