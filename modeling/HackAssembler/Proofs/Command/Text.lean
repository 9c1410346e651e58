/-
  HackAssembler.Proofs.Command.Text

  Commands that are written out and read back. The text of a command that can stand in a source is
  cut into tokens that form the same command: no two of its tokens run together, since of any two
  neighbours one is an operator, and nothing in it begins a comment or ends the line.
-/
import HackAssembler.Proofs.Command.Grammar
import HackAssembler.Proofs.Line

namespace HackAssembler

/-! ## Neighbours -/

namespace Token

@[simp] theorem text_identifier (name : String) : (identifier name).text = name := rfl

@[simp] theorem toList_text_operator (op : Operator) : (operator op).text.toList = [op.toChar] := by
  rw [text, Char.toString_eq_singleton, String.toList_singleton]

@[simp] theorem isLexeme_operator (op : Operator) : (operator op).IsLexeme := trivial

/-- Nothing runs together with an operator before it. -/
@[simp] theorem apart_of_operator (op : Operator) (next : Token) : Apart (operator op) next := by
  intro c _
  rfl

/-- An operator does not run together with a token before it. -/
theorem apart_operator {token : Token} (h : token.isInvalid = false) (op : Operator) :
    Apart token (operator op) := by
  rw [Apart, toList_text_operator, stopsAt_cons]
  exact isExtendedBy_operator_toChar h op

/-- The characters of a token that may stand in a command. -/
theorem IsLexeme.isIdentifierChar_or_operator {token : Token} (h : token.IsLexeme)
    (hvalid : token.isInvalid = false) {c : Char} (hc : c ∈ token.text.toList) :
    isIdentifierChar c = true ∨ ∃ op : Operator, c = op.toChar := by
  cases token with
  | number digits => exact .inl (isIdentifierChar_of_isDigit (h.2 c hc))
  | identifier name =>
    obtain ⟨first, rest, hlist, hfirst, hrest⟩ := h
    rw [text, hlist] at hc
    rcases List.mem_cons.mp hc with rfl | hc
    · exact .inl (isIdentifierChar_of_isIdentifierStart hfirst)
    · exact .inl (hrest c hc)
  | operator op =>
    rw [toList_text_operator, List.mem_singleton] at hc
    exact .inr ⟨op, hc⟩
  | invalid stray => cases hvalid

end Token

/-- Where `=` may not be the operator of a computation, fewer computations are allowed. -/
theorem IsComp.mono {tokens : List Token} {comp : String} (h : IsComp false tokens comp) :
    IsComp true tokens comp := by
  cases h with
  | single hv => exact .single hv
  | unary sign hv => exact .unary sign hv
  | binary hop _ hv hw => exact .binary hop (fun _ => rfl) hv hw

theorem IsComp.isChain {allow : Bool} {tokens after : List Token} {comp : String}
    {jump : Option String} (h : IsComp allow tokens comp) (hjump : IsJump after jump) :
    (tokens ++ after).IsChain Token.Apart := by
  cases h with
  | single hv =>
    have hright := Token.apart_operator hv.isInvalid_eq_false
    cases hjump <;> simp [hright]
  | unary _ hv =>
    have hright := Token.apart_operator hv.isInvalid_eq_false
    cases hjump <;> simp [hright]
  | binary _ _ hv hw =>
    have hright := Token.apart_operator hv.isInvalid_eq_false
    have hright' := Token.apart_operator hw.isInvalid_eq_false
    cases hjump <;> simp [hright, hright']

/-! ## Texts -/

theorem IsOperand.text_eq {v : Token} {text : String} (h : IsOperand v text) : v.text = text := by
  cases h <;> rfl

theorem IsComp.flatMap_text {allow : Bool} {tokens : List Token} {comp : String}
    (h : IsComp allow tokens comp) :
    (tokens.flatMap fun token => token.text.toList) = comp.toList := by
  cases h with
  | single hv => simp [hv.text_eq]
  | unary _ hv => simp [hv.text_eq]
  | binary _ _ hv hw => simp [hv.text_eq, hw.text_eq]

/-- The text of a condition with its `;`, or none. -/
def Command.jumpText (jump : Option String) : String :=
  match jump with
  | some jump => ";" ++ jump
  | none => ""

theorem IsJump.flatMap_text {tokens : List Token} {jump : Option String} (h : IsJump tokens jump) :
    (tokens.flatMap fun token => token.text.toList) = (Command.jumpText jump).toList := by
  cases h with
  | none => rfl
  | some name => simp [Command.jumpText, Operator.toChar]

/-! ## Written commands -/

namespace Command

theorem text_compute_none (comp : String) (jump : Option String) :
    (compute none comp jump).text = comp ++ jumpText jump :=
  congrArg (· ++ jumpText jump) String.empty_append

theorem text_compute_some (dest comp : String) (jump : Option String) :
    (compute (some dest) comp jump).text = dest ++ "=" ++ comp ++ jumpText jump := rfl

/-- The tokens of a command as it is written without blanks. -/
structure Written (tokens : List Token) (command : Command) : Prop where
  derives : Derives tokens command
  isLexeme : ∀ token ∈ tokens, token.IsLexeme
  isChain : tokens.IsChain Token.Apart
  flatMap_text : (tokens.flatMap fun token => token.text.toList) = command.text.toList

/-- A command that stands in a source can be written out. A label gets its closing parenthesis. -/
theorem exists_written {tokens : List Token} {command : Command} (h : Derives tokens command)
    (hlexeme : ∀ token ∈ tokens, token.IsLexeme) : ∃ written, Written written command := by
  have hright (name : String) :
      (Token.identifier name).Apart (.operator .closeParen) := Token.apart_operator rfl _
  cases h with
  | @address v symbol hv =>
    refine ⟨_, .address hv, hlexeme, by simp, ?_⟩
    simp [hv.text_eq, Operator.toChar, text]
  | openLabel name =>
    -- The text of a label has the closing parenthesis that its line left out.
    refine ⟨_, .label name, ?_, by simp [hright], by simp [Operator.toChar, text]⟩
    have hname := hlexeme (.identifier name) (by simp)
    simp [hname]
  | label name =>
    exact ⟨_, .label name, hlexeme, by simp [hright], by simp [Operator.toChar, text]⟩
  | @compute taken after comp jump hcomp hjump =>
    refine ⟨_, .compute hcomp hjump, hlexeme, hcomp.isChain hjump, ?_⟩
    rw [List.flatMap_append, hcomp.flatMap_text, hjump.flatMap_text, text_compute_none,
      String.toList_append]
  | @assign dest taken after comp jump hcomp hjump =>
    refine ⟨_, .assign hcomp hjump, hlexeme, ?_, ?_⟩
    · have hfirst := Token.apart_operator (Token.isInvalid_identifier dest) .assign
      have hrest := hcomp.isChain hjump
      -- The `=` stands apart from both sides, and the rest is a chain by itself.
      rw [List.isChain_cons_cons]
      refine ⟨hfirst, ?_⟩
      cases htokens : taken ++ after with
      | nil => simp
      | cons token tokens =>
        rw [List.isChain_cons_cons]
        exact ⟨Token.apart_of_operator _ _, htokens ▸ hrest⟩
    · rw [text_compute_some, List.flatMap_cons, List.flatMap_cons, List.flatMap_append,
        hcomp.flatMap_text, hjump.flatMap_text]
      simp [Operator.toChar]

variable {tokens : List Token} {command : Command}

/-- Written tokens are found again. -/
theorem Written.scan (h : Written tokens command) : Token.scan command.text.toList = tokens := by
  rw [← h.flatMap_text]
  exact Token.scan_flatMap_text h.isLexeme h.isChain

theorem Written.isIdentifierChar_or_operator (h : Written tokens command) {c : Char}
    (hc : c ∈ command.text.toList) : isIdentifierChar c = true ∨ ∃ op : Operator, c = op.toChar := by
  rw [← h.flatMap_text] at hc
  obtain ⟨token, htoken, hc⟩ := List.mem_flatMap.mp hc
  exact (h.isLexeme token htoken).isIdentifierChar_or_operator
    (h.derives.isInvalid_eq_false token htoken) hc

/-- A character that no token is made of does not stand in a command. -/
theorem Written.not_mem (h : Written tokens command) {c : Char}
    (hchar : isIdentifierChar c = false) (hop : Operator.ofChar? c = none) :
    c ∉ command.text.toList := by
  intro hc
  rcases h.isIdentifierChar_or_operator hc with hmem | ⟨op, rfl⟩
  · rw [hchar] at hmem
    cases hmem
  · rw [Operator.ofChar?_toChar] at hop
    cases hop

theorem Written.slash_not_mem (h : Written tokens command) : '/' ∉ command.text.toList :=
  h.not_mem (by decide) (by decide)

theorem Written.newline_not_mem (h : Written tokens command) : '\n' ∉ command.text.toList :=
  h.not_mem (by decide) (by decide)

/-- The line of a written command holds its tokens. -/
theorem Written.ofText? (h : Written tokens command) (number : Nat) :
    Line.ofText? number command.text.toList = some ⟨number, tokens⟩ := by
  rw [Line.ofText?_eq_some_iff, beforeComment_of_not_mem h.slash_not_mem, h.scan]
  exact ⟨rfl, rfl, h.derives.ne_nil⟩

end Command

end HackAssembler
