/-
  HackAssembler.Token.Scan

  Cutting text into tokens. Blanks separate tokens and are dropped; every other character belongs
  to exactly one token. A token takes as many characters as its class allows, so no token can be
  extended to the right.

  `Token.scan` runs in constant stack on lines of any length. Its three equations `scan_nil`,
  `scan_cons_of_isBlank` and `scan_cons` are what proofs use.
-/
import HackAssembler.Text.Blank
import HackAssembler.Token

namespace HackAssembler

open Text (isBlank)

/-- The characters that fit no class of token: neither blank, nor an operator, nor possible in a
    number or an identifier. -/
def isStray (c : Char) : Bool :=
  !isBlank c && !isIdentifierChar c && (Operator.ofChar? c).isNone

namespace Token

/-! ## One token -/

/-- The token that begins with the character `c`, which is not blank, and what follows it. -/
def lead (c : Char) (rest : List Char) : Token × List Char :=
  if c.isDigit then
    (number (String.ofList (c :: rest.takeWhile Char.isDigit)), rest.dropWhile Char.isDigit)
  else
    match Operator.ofChar? c with
    | some op => (operator op, rest)
    | none =>
      if isIdentifierStart c then
        (identifier (String.ofList (c :: rest.takeWhile isIdentifierChar)),
          rest.dropWhile isIdentifierChar)
      else
        (invalid (String.ofList (c :: rest.takeWhile isStray)), rest.dropWhile isStray)

/-- A token takes at least its first character. -/
theorem length_lead_le (c : Char) (rest : List Char) :
    (lead c rest).2.length ≤ rest.length := by
  unfold lead
  split
  · exact (List.dropWhile_sublist _).length_le
  · split
    · exact Nat.le_refl _
    · split <;> exact (List.dropWhile_sublist _).length_le

/-- Text and rest together are what was read. -/
theorem text_lead_append (c : Char) (rest : List Char) :
    (lead c rest).1.text.toList ++ (lead c rest).2 = c :: rest := by
  unfold lead
  split
  · simp [text]
  · split
    · rename_i op h
      simp [text, Operator.ofChar?_eq_some_iff.mp h]
    · split <;> simp [text]

/-! ## All tokens -/

/-- The tokens of a text, from left to right. -/
def scan (source : List Char) : List Token :=
  go [] source
where
  /-- Scans what is left, with the tokens found so far in `found`, the latest first. -/
  go (found : List Token) : List Char → List Token
    | [] => found.reverse
    | c :: rest =>
      if isBlank c then go found rest else go ((lead c rest).1 :: found) (lead c rest).2
  termination_by left => left.length
  decreasing_by
    · simp
    · exact Nat.lt_succ_of_le (length_lead_le c rest)

/-- Tokens found earlier stay in front and change nothing else. -/
theorem scan.go_append (found earlier : List Token) (left : List Char) :
    scan.go (found ++ earlier) left = earlier.reverse ++ scan.go found left := by
  fun_induction scan.go found left with
  | case1 found => simp [scan.go]
  | case2 found c rest h ih => rw [scan.go, if_pos h, ih]
  | case3 found c rest h ih => rw [scan.go, if_neg h, ← List.cons_append, ih]

@[simp] theorem scan_nil : scan [] = [] := by simp [scan, scan.go]

theorem scan_cons_of_isBlank {c : Char} (h : isBlank c = true) (rest : List Char) :
    scan (c :: rest) = scan rest := by
  simp [scan, scan.go, h]

theorem scan_cons {c : Char} (h : isBlank c = false) (rest : List Char) :
    scan (c :: rest) = (lead c rest).1 :: scan (lead c rest).2 := by
  rw [scan, scan.go, if_neg (by simp [h])]
  exact scan.go_append [] [(lead c rest).1] (lead c rest).2

end Token

end HackAssembler
