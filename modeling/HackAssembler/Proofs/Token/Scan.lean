/-
  HackAssembler.Proofs.Token.Scan

  What scanning finds. Every token it finds has the form of its class (`Token.IsLexeme`), and a
  token that was written down is found again if the character behind it cannot extend it
  (`scan_text_append`). Tokens written one behind the other are therefore found again if no token
  is extended by the first character of its neighbour (`scan_flatMap_text`).
-/
import HackAssembler.Token.Scan
import Mathlib.Data.List.Chain
import Mathlib.Data.List.TakeWhile

namespace HackAssembler

open Text (isBlank)

/-! ## Classes of characters -/

theorem isDigit_iff {c : Char} : c.isDigit = true ↔ 48 ≤ c.toNat ∧ c.toNat ≤ 57 := by
  simp [Char.isDigit, UInt32.le_iff_toNat_le, ← Char.toNat_val]

theorem isUpper_iff {c : Char} : c.isUpper = true ↔ 65 ≤ c.toNat ∧ c.toNat ≤ 90 := by
  have hrange : c.isUpper = decide (c.val ≥ 'A'.val ∧ c.val ≤ 'Z'.val) := rfl
  simp [hrange, UInt32.le_iff_toNat_le, ← Char.toNat_val]

theorem isLower_iff {c : Char} : c.isLower = true ↔ 97 ≤ c.toNat ∧ c.toNat ≤ 122 := by
  have hrange : c.isLower = (decide (c.val ≥ 'a'.val) && decide (c.val ≤ 'z'.val)) := rfl
  simp [hrange, UInt32.le_iff_toNat_le, ← Char.toNat_val]

/-- An identifier begins with a letter or with one of four marks. -/
theorem isIdentifierStart_toNat {c : Char} (h : isIdentifierStart c = true) :
    (65 ≤ c.toNat ∧ c.toNat ≤ 90) ∨ (97 ≤ c.toNat ∧ c.toNat ≤ 122) ∨ c.toNat = 95 ∨ c.toNat = 46 ∨
      c.toNat = 36 ∨ c.toNat = 58 := by
  have hletter : c.isAlpha = (c.isUpper || c.isLower) := rfl
  rw [isIdentifierStart, hletter] at h
  simp only [Bool.or_eq_true, isUpper_iff, isLower_iff, beq_iff_eq] at h
  rcases h with ((((hupper | hlower) | rfl) | rfl) | rfl) | rfl
  · exact .inl hupper
  · exact .inr (.inl hlower)
  all_goals simp

theorem isDigit_of_isIdentifierStart {c : Char} (h : isIdentifierStart c = true) :
    c.isDigit = false := by
  have hstart := isIdentifierStart_toNat h
  rw [Bool.eq_false_iff, ne_eq, isDigit_iff]
  omega

/-- The characters of numbers and identifiers are visible. -/
theorem isBlank_of_isIdentifierChar {c : Char} (h : isIdentifierChar c = true) :
    isBlank c = false := by
  apply Text.isBlank_eq_false
  rw [isIdentifierChar, Bool.or_eq_true] at h
  rcases h with h | h
  · have := isIdentifierStart_toNat h
    omega
  · have := isDigit_iff.mp h
    omega

theorem isIdentifierChar_of_isDigit {c : Char} (h : c.isDigit = true) :
    isIdentifierChar c = true := by
  rw [isIdentifierChar, h, Bool.or_true]

theorem isIdentifierChar_of_isIdentifierStart {c : Char} (h : isIdentifierStart c = true) :
    isIdentifierChar c = true := by
  rw [isIdentifierChar, h, Bool.true_or]

@[simp] theorem isIdentifierChar_toChar (op : Operator) : isIdentifierChar op.toChar = false := by
  cases op <;> rfl

@[simp] theorem isBlank_toChar (op : Operator) : isBlank op.toChar = false := by
  cases op <;> rfl

theorem ofChar?_of_isIdentifierChar {c : Char} (h : isIdentifierChar c = true) :
    Operator.ofChar? c = none := by
  cases hop : Operator.ofChar? c with
  | none => rfl
  | some op =>
    rw [Operator.ofChar?_eq_some_iff.mp hop, isIdentifierChar_toChar] at h
    contradiction

namespace Token

/-! ## Lexemes -/

/-- A token as it may stand in a source: it has a text, and the text is of its class. -/
def IsLexeme : Token → Prop
  | number digits => digits ≠ "" ∧ ∀ c ∈ digits.toList, c.isDigit = true
  | identifier name => ∃ c rest, name.toList = c :: rest ∧ isIdentifierStart c = true ∧
      ∀ d ∈ rest, isIdentifierChar d = true
  | operator _ => True
  | invalid text => text ≠ "" ∧ ∀ c ∈ text.toList, isStray c = true

/-- Tells whether a token could go on with a character. -/
def isExtendedBy : Token → Char → Bool
  | number _ => Char.isDigit
  | identifier _ => isIdentifierChar
  | operator _ => fun _ => false
  | invalid _ => isStray

/-- What comes behind a token does not extend it. -/
def StopsAt (token : Token) (rest : List Char) : Prop :=
  ∀ c ∈ rest.head?, token.isExtendedBy c = false

theorem stopsAt_nil (token : Token) : token.StopsAt [] := by
  intro c h
  simp at h

theorem stopsAt_cons {token : Token} {c : Char} {rest : List Char} :
    token.StopsAt (c :: rest) ↔ token.isExtendedBy c = false := by
  simp [StopsAt]

/-- Nothing extends an operator, and an operator extends only a token of stray characters. -/
theorem isExtendedBy_operator_toChar {token : Token} (h : token.isInvalid = false)
    (op : Operator) : token.isExtendedBy op.toChar = false := by
  cases token with
  | number digits => cases op <;> rfl
  | identifier name => cases op <;> rfl
  | operator other => rfl
  | invalid text => cases h

theorem isLexeme_lead {c : Char} (h : isBlank c = false) (rest : List Char) :
    (lead c rest).1.IsLexeme := by
  have taken (p : Char → Bool) : ∀ d ∈ rest.takeWhile p, p d = true :=
    fun d hd => List.mem_takeWhile_imp hd
  unfold lead
  -- The first character decides the class, and the class takes the others.
  split
  · rename_i hdigit
    refine ⟨by simp, ?_⟩
    rw [String.toList_ofList]
    exact List.forall_mem_cons.mpr ⟨hdigit, taken _⟩
  · rename_i hdigit
    split
    · trivial
    · rename_i hop
      split
      · rename_i hstart
        exact ⟨c, _, by rw [String.toList_ofList], hstart, taken _⟩
      · rename_i hstart
        refine ⟨by simp, ?_⟩
        rw [String.toList_ofList]
        refine List.forall_mem_cons.mpr ⟨?_, taken _⟩
        simp_all [isStray, isIdentifierChar]

/-- Scanning goes over a text blank by blank and token by token. -/
theorem scan_induction {motive : List Char → Prop} (nil : motive [])
    (blank : ∀ c rest, isBlank c = true → motive rest → motive (c :: rest))
    (token : ∀ c rest, isBlank c = false → motive (lead c rest).2 → motive (c :: rest)) :
    ∀ source, motive source
  | [] => nil
  | c :: rest =>
    match h : isBlank c with
    | true => blank c rest h (scan_induction nil blank token rest)
    | false => token c rest h (scan_induction nil blank token (lead c rest).2)
termination_by source => source.length
decreasing_by
  · simp
  · exact Nat.lt_succ_of_le (length_lead_le c rest)

theorem isLexeme_of_mem_scan {source : List Char} :
    ∀ token ∈ scan source, token.IsLexeme := by
  induction source using scan_induction with
  | nil => simp
  | blank c rest hblank ih =>
    rw [scan_cons_of_isBlank hblank]
    exact ih
  | token c rest hblank ih =>
    rw [scan_cons hblank, List.forall_mem_cons]
    exact ⟨isLexeme_lead hblank rest, ih⟩

/-- A blank extends no token. -/
theorem isExtendedBy_of_isBlank {c : Char} (h : isBlank c = true) (token : Token) :
    token.isExtendedBy c = false := by
  rw [Bool.eq_false_iff]
  intro hextends
  cases token with
  | number digits =>
    have hvisible := isBlank_of_isIdentifierChar (isIdentifierChar_of_isDigit hextends)
    rw [h] at hvisible
    cases hvisible
  | identifier name =>
    have hvisible := isBlank_of_isIdentifierChar hextends
    rw [h] at hvisible
    cases hvisible
  | operator op => cases hextends
  | invalid text =>
    have hvisible : isStray c = false := by rw [isStray, h]; rfl
    exact absurd hextends (by simp [isExtendedBy, hvisible])

/-- A token takes as many characters as its class allows. -/
theorem stopsAt_lead (c : Char) (rest : List Char) : (lead c rest).1.StopsAt (lead c rest).2 := by
  have left (p : Char → Bool) : ∀ d ∈ (rest.dropWhile p).head?, p d = false := by
    intro d hd
    have hstop := List.head?_dropWhile_not p rest
    rw [Option.mem_def.mp hd] at hstop
    exact hstop
  unfold lead
  split
  · exact left _
  · split
    · intro d _
      rfl
    · split
      · exact left _
      · exact left _

/-- The text of a token stands in what was scanned. -/
theorem text_infix_of_mem_scan {source : List Char} :
    ∀ token ∈ scan source, token.text.toList <:+: source := by
  induction source using scan_induction with
  | nil => simp
  | blank c rest hblank ih =>
    rw [scan_cons_of_isBlank hblank]
    intro token htoken
    exact (ih token htoken).trans (List.suffix_cons c rest).isInfix
  | token c rest hblank ih =>
    have hsplit := text_lead_append c rest
    rw [scan_cons hblank, List.forall_mem_cons]
    refine ⟨⟨[], (lead c rest).2, by simpa using hsplit⟩, ?_⟩
    intro token htoken
    have hsuffix : (lead c rest).2 <:+ c :: rest := ⟨_, hsplit⟩
    exact (ih token htoken).trans hsuffix.isInfix

/-! ## Scanning what was written -/

theorem takeWhile_append_of_stop {p : Char → Bool} {run rest : List Char}
    (hrun : ∀ c ∈ run, p c = true) (hstop : ∀ c ∈ rest.head?, p c = false) :
    (run ++ rest).takeWhile p = run := by
  rw [List.takeWhile_append_of_pos hrun]
  cases rest with
  | nil => simp
  | cons c rest => simp [hstop c rfl]

theorem dropWhile_append_of_stop {p : Char → Bool} {run rest : List Char}
    (hrun : ∀ c ∈ run, p c = true) (hstop : ∀ c ∈ rest.head?, p c = false) :
    (run ++ rest).dropWhile p = rest := by
  rw [List.dropWhile_append_of_pos hrun]
  cases rest with
  | nil => rfl
  | cons c rest => simp [hstop c rfl]

/-- A lexeme begins with a character that is not blank. -/
theorem IsLexeme.exists_cons {token : Token} (h : token.IsLexeme) :
    ∃ c tail, token.text.toList = c :: tail ∧ isBlank c = false := by
  cases token with
  | number digits =>
    obtain ⟨hne, hdigits⟩ := h
    obtain ⟨c, tail, hlist⟩ := List.exists_cons_of_ne_nil (mt String.toList_eq_nil_iff.mp hne)
    have hc := hdigits c (by rw [hlist]; simp)
    exact ⟨c, tail, hlist, isBlank_of_isIdentifierChar (isIdentifierChar_of_isDigit hc)⟩
  | identifier name =>
    obtain ⟨c, tail, hlist, hc, -⟩ := h
    exact ⟨c, tail, hlist,
      isBlank_of_isIdentifierChar (isIdentifierChar_of_isIdentifierStart hc)⟩
  | operator op => exact ⟨op.toChar, [], by simp [text], isBlank_toChar op⟩
  | invalid stray =>
    obtain ⟨hne, hstray⟩ := h
    obtain ⟨c, tail, hlist⟩ := List.exists_cons_of_ne_nil (mt String.toList_eq_nil_iff.mp hne)
    have hc := hstray c (by rw [hlist]; simp)
    exact ⟨c, tail, hlist, by simp_all [isStray]⟩

/-- The token that a written lexeme leads with is the lexeme itself. -/
theorem lead_of_isLexeme {token : Token} (h : token.IsLexeme) {c : Char} {tail rest : List Char}
    (htext : token.text.toList = c :: tail) (hstop : token.StopsAt rest) :
    lead c (tail ++ rest) = (token, rest) := by
  cases token with
  | number digits =>
    have hdigits := h.2
    rw [show digits.toList = c :: tail from htext, List.forall_mem_cons] at hdigits
    rw [lead, if_pos hdigits.1, takeWhile_append_of_stop hdigits.2 hstop,
      dropWhile_append_of_stop hdigits.2 hstop, ← htext]
    simp [text]
  | identifier name =>
    obtain ⟨first, left, hlist, hstart, hleft⟩ := h
    obtain ⟨rfl, rfl⟩ : first = c ∧ left = tail := by
      simpa using hlist.symm.trans htext
    have hchar := isIdentifierChar_of_isIdentifierStart hstart
    rw [lead, if_neg (by simp [isDigit_of_isIdentifierStart hstart]),
      ofChar?_of_isIdentifierChar hchar]
    simp only [if_pos hstart]
    rw [takeWhile_append_of_stop hleft hstop, dropWhile_append_of_stop hleft hstop, ← htext]
    simp [text]
  | operator op =>
    -- An operator is one character, whatever follows.
    obtain ⟨rfl, rfl⟩ : op.toChar = c ∧ [] = tail := by simpa [text] using htext
    have hdigit : op.toChar.isDigit = false := by cases op <;> rfl
    rw [lead, hdigit, Operator.ofChar?_toChar]
    rfl
  | invalid stray =>
    have hstray := h.2
    rw [show stray.toList = c :: tail from htext, List.forall_mem_cons] at hstray
    obtain ⟨hc, htail⟩ := hstray
    simp only [isStray, isIdentifierChar, Bool.and_eq_true, Bool.not_eq_true',
      Bool.or_eq_false_iff, Option.isNone_iff_eq_none] at hc
    obtain ⟨⟨-, hstart, hdigit⟩, hop⟩ := hc
    rw [lead, hdigit, hop, hstart]
    simp only [Bool.false_eq_true, if_false]
    rw [takeWhile_append_of_stop htail hstop, dropWhile_append_of_stop htail hstop, ← htext]
    simp [text]

/-- A lexeme is found where it was written, and the scan goes on behind it. -/
theorem scan_text_append {token : Token} (h : token.IsLexeme) {rest : List Char}
    (hstop : token.StopsAt rest) : scan (token.text.toList ++ rest) = token :: scan rest := by
  obtain ⟨c, tail, htext, hblank⟩ := h.exists_cons
  rw [htext, List.cons_append, scan_cons hblank, lead_of_isLexeme h htext hstop]

/-- Blanks before a text are dropped. -/
theorem scan_append_of_isBlank {gap : List Char} (h : ∀ c ∈ gap, isBlank c = true)
    (rest : List Char) : scan (gap ++ rest) = scan rest := by
  induction gap with
  | nil => rfl
  | cons c gap ih =>
    rw [List.forall_mem_cons] at h
    rw [List.cons_append, scan_cons_of_isBlank h.1, ih h.2]

/-- A blank behind a text is dropped. -/
theorem scan_append_singleton {c : Char} (h : isBlank c = true) (source : List Char) :
    scan (source ++ [c]) = scan source := by
  induction source using scan_induction with
  | nil => rw [List.nil_append, scan_cons_of_isBlank h]
  | blank d rest hblank ih =>
    rw [List.cons_append, scan_cons_of_isBlank hblank, scan_cons_of_isBlank hblank, ih]
  | token d rest hblank ih =>
    have hstop : (lead d rest).1.StopsAt ((lead d rest).2 ++ [c]) := by
      have hlead := stopsAt_lead d rest
      cases hleft : (lead d rest).2 with
      | nil => exact stopsAt_cons.mpr (isExtendedBy_of_isBlank h _)
      | cons e left =>
        rw [hleft, stopsAt_cons] at hlead
        exact stopsAt_cons.mpr hlead
    rw [scan_cons hblank, ← text_lead_append d rest, List.append_assoc,
      scan_text_append (isLexeme_lead hblank rest) hstop, ih]

/-- Two neighbours of which the first is not extended by the second. -/
def Apart (left right : Token) : Prop :=
  left.StopsAt right.text.toList

/-- Lexemes that stand apart are found where they were written one behind the other. -/
theorem scan_flatMap_text {tokens : List Token} (hlexeme : ∀ token ∈ tokens, token.IsLexeme)
    (hapart : tokens.IsChain Apart) :
    scan (tokens.flatMap fun token => token.text.toList) = tokens := by
  induction hapart with
  | nil => simp
  | singleton token =>
    have hscan := scan_text_append (hlexeme token (by simp)) (stopsAt_nil token)
    simpa using hscan
  | @cons_cons token next tokens hnext _ ih =>
    rw [List.forall_mem_cons] at hlexeme
    rw [List.flatMap_cons, scan_text_append hlexeme.1, ih hlexeme.2]
    -- The neighbour has a text, so its first character is the one that counts.
    obtain ⟨c, tail, htext, -⟩ := (hlexeme.2 next (by simp)).exists_cons
    rw [Apart, htext, stopsAt_cons] at hnext
    rw [List.flatMap_cons, htext, List.cons_append, stopsAt_cons]
    exact hnext

end Token

end HackAssembler
