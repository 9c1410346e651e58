/-
  HackAssembler.Proofs.Command.Grammar

  Reading a line accepts the grammar of `Derives` and nothing else. Each part of the reader has a
  lemma for what it takes (`_sound`) and one for what it takes of tokens that fit (`_complete`);
  the two directions for a whole line, `derives_of_ofTokens` and `ofTokens_of_derives`, follow the
  three kinds of commands.
-/
import HackAssembler.Command.Derivation
import HackAssembler.Command.Grammar
import HackAssembler.Proofs.Report

namespace HackAssembler

/-! ## Tokens of operands -/

@[simp] theorem Token.isInvalid_operator (op : Operator) : (operator op).isInvalid = false := rfl

@[simp] theorem Token.isInvalid_identifier (name : String) :
    (identifier name).isInvalid = false := rfl

theorem IsOperand.isInvalid_eq_false {v : Token} {text : String} (h : IsOperand v text) :
    v.isInvalid = false := by
  cases h <;> rfl

/-- An operand is no operator. -/
theorem IsOperand.ne_operator {v : Token} {text : String} (h : IsOperand v text)
    (op : Operator) : v ≠ .operator op := by
  cases h <;> simp

theorem IsComp.isInvalid_eq_false {allow : Bool} {tokens : List Token} {text : String}
    (h : IsComp allow tokens text) : ∀ token ∈ tokens, token.isInvalid = false := by
  cases h with
  | single operand => simp [operand.isInvalid_eq_false]
  | unary sign operand => simp [operand.isInvalid_eq_false]
  | binary notSemicolon assign first second =>
    simp [first.isInvalid_eq_false, second.isInvalid_eq_false]

theorem IsJump.isInvalid_eq_false {tokens : List Token} {jump : Option String}
    (h : IsJump tokens jump) : ∀ token ∈ tokens, token.isInvalid = false := by
  cases h <;> simp

/-- The tokens of a command are all valid. -/
theorem Derives.isInvalid_eq_false {tokens : List Token} {command : Command}
    (h : Derives tokens command) : ∀ token ∈ tokens, token.isInvalid = false := by
  cases h with
  | address operand => simp [operand.isInvalid_eq_false]
  | openLabel name => simp
  | label name => simp
  | compute computation condition =>
    intro token htoken
    rcases List.mem_append.mp htoken with h | h
    · exact computation.isInvalid_eq_false token h
    · exact condition.isInvalid_eq_false token h
  | assign computation condition =>
    intro token htoken
    simp only [List.mem_cons, List.mem_append] at htoken
    rcases htoken with rfl | rfl | h | h
    · rfl
    · rfl
    · exact computation.isInvalid_eq_false token h
    · exact condition.isInvalid_eq_false token h

theorem Derives.ne_nil {tokens : List Token} {command : Command} (h : Derives tokens command) :
    tokens ≠ [] := by
  cases h with
  | compute computation condition => cases computation <;> simp
  | _ => simp

/-- Tokens that do not go on with a computation: the first is no operator, or it is `;`. -/
def StopsComp (rest : List Token) : Prop :=
  ∀ op tail, rest = .operator op :: tail → op = .semicolon

theorem IsJump.stopsComp {tokens : List Token} {jump : Option String} (h : IsJump tokens jump) :
    StopsComp tokens := by
  intro op tail htokens
  cases h with
  | none => cases htokens
  | some jump => cases htokens; rfl

/-- The tokens of a computation are no label. -/
theorem IsComp.unclosedLabel? {allow : Bool} {tokens : List Token} {comp : String}
    (h : IsComp allow tokens comp) (after : List Token) :
    Command.unclosedLabel? (tokens ++ after) = none := by
  unfold Command.unclosedLabel?
  split
  · rfl
  · cases h with
    | single operand => cases operand <;> rfl
    | unary sign operand => rcases sign with rfl | rfl <;> rfl
    | binary notSemicolon assign first second => cases first <;> rfl

/-- The tokens of an instruction are no label. -/
theorem Derives.unclosedLabel? {tokens : List Token} {command : Command}
    (h : Derives tokens command) (hcommand : command.isInstruction = true) :
    Command.unclosedLabel? tokens = none := by
  cases h with
  | address operand => cases operand <;> rfl
  | openLabel name => cases hcommand
  | label name => cases hcommand
  | compute computation condition => exact computation.unclosedLabel? _
  | assign computation condition =>
    unfold Command.unclosedLabel?
    split <;> rfl

namespace Command

/-! ## Operands -/

theorem takeOperand_sound {what : Expectation} {tokens rest : List Token} {text : String}
    (h : takeOperand what tokens = .ok (text, rest)) :
    ∃ v, IsOperand v text ∧ tokens = v :: rest := by
  unfold takeOperand at h
  split at h
  · cases h
    exact ⟨_, .number _, rfl⟩
  · cases h
    exact ⟨_, .identifier _, rfl⟩
  · cases h

theorem takeOperand_complete {v : Token} {text : String} (h : IsOperand v text)
    (what : Expectation) (rest : List Token) : takeOperand what (v :: rest) = .ok (text, rest) := by
  cases h <;> rfl

/-! ## Computations -/

theorem takeSecondOperand_sound {first text : String} {tokens rest : List Token}
    (h : takeSecondOperand first tokens = .ok (text, rest)) :
    (text = first ∧ tokens = rest) ∨
      ∃ op w second, op ≠ .semicolon ∧ IsOperand w second ∧
        text = first ++ op.toChar.toString ++ second ∧ tokens = .operator op :: w :: rest := by
  unfold takeSecondOperand at h
  split at h
  · cases h
    exact .inl ⟨rfl, rfl⟩
  · rename_i op left hop
    obtain ⟨⟨second, rest'⟩, hsecond, hrest⟩ := except_bind_eq_ok_iff.mp h
    cases hrest
    obtain ⟨w, hw, rfl⟩ := takeOperand_sound hsecond
    refine .inr ⟨op, w, second, hop, hw, ?_, rfl⟩
    rw [String.push_eq_append]
    rfl
  · cases h
    exact .inl ⟨rfl, rfl⟩

theorem takeSecondOperand_of_stops {rest : List Token} (h : StopsComp rest) (first : String) :
    takeSecondOperand first rest = .ok (first, rest) := by
  unfold takeSecondOperand
  split
  · rfl
  · rename_i op left hop
    exact absurd (h op left rfl) hop
  · rfl

theorem takeComp_sound {tokens rest : List Token} {comp : String}
    (h : takeComp tokens = .ok (comp, rest)) :
    ∃ taken, IsComp true taken comp ∧ tokens = taken ++ rest := by
  -- A sign takes one operand, an operand perhaps an operator and a second one.
  have unary {op : Operator} (sign : op = .minus ∨ op = .bang) {left : List Token}
      (h : takeComp.takeUnary op left = .ok (comp, rest)) :
      ∃ taken, IsComp true taken comp ∧ .operator op :: left = taken ++ rest := by
    obtain ⟨⟨operand, rest'⟩, hoperand, hrest⟩ := except_bind_eq_ok_iff.mp h
    cases hrest
    obtain ⟨v, hv, rfl⟩ := takeOperand_sound hoperand
    exact ⟨_, .unary sign hv, rfl⟩
  have operand {v : Token} {first : String} (hv : IsOperand v first) {left : List Token}
      (h : takeSecondOperand first left = .ok (comp, rest)) :
      ∃ taken, IsComp true taken comp ∧ v :: left = taken ++ rest := by
    rcases takeSecondOperand_sound h with ⟨rfl, rfl⟩ | ⟨op, w, second, hop, hw, rfl, rfl⟩
    · exact ⟨[v], .single hv, rfl⟩
    · exact ⟨[v, .operator op, w], .binary hop (fun _ => rfl) hv hw, rfl⟩
  unfold takeComp at h
  split at h
  · exact unary (.inl rfl) h
  · exact unary (.inr rfl) h
  · exact operand (.number _) h
  · exact operand (.identifier _) h
  · cases h

theorem takeComp_complete {allow : Bool} {tokens rest : List Token} {comp : String}
    (h : IsComp allow tokens comp) (hrest : StopsComp rest) :
    takeComp (tokens ++ rest) = .ok (comp, rest) := by
  have operand {v : Token} {first : String} (hv : IsOperand v first) (left : List Token) :
      takeComp (v :: left) = takeSecondOperand first left := by
    cases hv <;> rfl
  cases h with
  | single hv => exact (operand hv rest).trans (takeSecondOperand_of_stops hrest comp)
  | @unary op v text sign hv =>
    -- Only `-` and `!` are read as signs.
    have step : takeComp ([.operator op, v] ++ rest) = takeComp.takeUnary op (v :: rest) := by
      rcases sign with rfl | rfl <;> rfl
    rw [step, takeComp.takeUnary, takeOperand_complete hv]
    rfl
  | @binary op v w left right hop assign hv hw =>
    have step : takeComp ([v, .operator op, w] ++ rest) =
        takeSecondOperand left (.operator op :: w :: rest) := operand hv _
    have htext : left ++ op.toChar.toString ++ right = left.push op.toChar ++ right := by
      rw [String.push_eq_append]
      rfl
    rw [step, takeSecondOperand, takeOperand_complete hw, htext]
    · rfl
    · exact hop

/-! ## Destinations and conditions -/

theorem takeDest_sound {tokens rest : List Token} {dest : Option String}
    (h : takeDest tokens = .ok (dest, rest)) :
    (∃ name, dest = some name ∧ tokens = .identifier name :: .operator .assign :: rest) ∨
      dest = none ∧ tokens = rest ∧ ∀ v left, tokens ≠ v :: .operator .assign :: left := by
  unfold takeDest at h
  split at h
  · cases h
    exact .inl ⟨_, rfl, rfl⟩
  · cases h
  · rename_i hident hassign
    cases h
    exact .inr ⟨rfl, rfl, fun v left htokens => hassign v left htokens⟩

theorem takeDest_of_not_assign {tokens : List Token}
    (h : ∀ v left, tokens ≠ v :: .operator .assign :: left) :
    takeDest tokens = .ok (none, tokens) := by
  unfold takeDest
  split
  · exact absurd rfl (h _ _)
  · exact absurd rfl (h _ _)
  · rfl

theorem takeJump_sound {tokens rest : List Token} {jump : Option String}
    (h : takeJump tokens = .ok (jump, rest)) :
    ∃ taken, IsJump taken jump ∧ tokens = taken ++ rest := by
  unfold takeJump at h
  split at h
  · cases h
    exact ⟨_, .some _, rfl⟩
  · cases h
  · cases h
    exact ⟨[], .none, rfl⟩

theorem takeJump_complete {tokens : List Token} {jump : Option String} (h : IsJump tokens jump) :
    takeJump tokens = .ok (jump, []) := by
  cases h <;> rfl

/-! ## A whole computation -/

/-- The second token of a computation without destination is no `=`, with a condition or not. -/
theorem ne_assign_of_isComp {tokens after : List Token} {comp : String} {jump : Option String}
    (hcomp : IsComp false tokens comp) (hjump : IsJump after jump) (v : Token)
    (left : List Token) : tokens ++ after ≠ v :: .operator .assign :: left := by
  intro htokens
  cases hcomp with
  | single hv =>
    -- Behind a single operand there is nothing or a `;`.
    cases hjump <;> simp at htokens
  | unary sign hv =>
    have := hv.ne_operator .assign
    simp_all
  | binary hop assign hv hw =>
    have := assign (by simp_all)
    contradiction

theorem takeCompute_sound {tokens : List Token} {command : Command}
    (h : takeCompute tokens = .ok (command, [])) : Derives tokens command := by
  obtain ⟨⟨dest, afterDest⟩, hdest, h⟩ := except_bind_eq_ok_iff.mp h
  obtain ⟨⟨comp, afterComp⟩, hcomp, h⟩ := except_bind_eq_ok_iff.mp h
  obtain ⟨⟨jump, afterJump⟩, hjump, h⟩ := except_bind_eq_ok_iff.mp h
  cases h
  obtain ⟨taken, htaken, rfl⟩ := takeComp_sound hcomp
  obtain ⟨condition, hcondition, rfl⟩ := takeJump_sound hjump
  rw [List.append_nil] at *
  rcases takeDest_sound hdest with ⟨name, rfl, rfl⟩ | ⟨rfl, rfl, hassign⟩
  · exact .assign htaken hcondition
  · refine .compute ?_ hcondition
    -- Without a destination the operator cannot have been `=`.
    cases htaken with
    | single hv => exact .single hv
    | unary sign hv => exact .unary sign hv
    | binary hop assign hv hw =>
      refine .binary hop (fun heq => ?_) hv hw
      subst heq
      exact absurd rfl (hassign _ _)

theorem takeCompute_of_isComp {tokens after : List Token} {comp : String} {jump : Option String}
    (hcomp : IsComp false tokens comp) (hjump : IsJump after jump) :
    takeCompute (tokens ++ after) = .ok (compute none comp jump, []) := by
  refine except_bind_eq_ok_iff.mpr ⟨(none, tokens ++ after), ?_, ?_⟩
  · exact takeDest_of_not_assign (ne_assign_of_isComp hcomp hjump)
  · refine except_bind_eq_ok_iff.mpr ⟨(comp, after), takeComp_complete hcomp hjump.stopsComp, ?_⟩
    exact except_bind_eq_ok_iff.mpr ⟨(jump, []), takeJump_complete hjump, rfl⟩

theorem takeCompute_of_assign {tokens after : List Token} {dest comp : String}
    {jump : Option String} (hcomp : IsComp true tokens comp) (hjump : IsJump after jump) :
    takeCompute (.identifier dest :: .operator .assign :: (tokens ++ after)) =
      .ok (compute (some dest) comp jump, []) := by
  refine except_bind_eq_ok_iff.mpr ⟨(some dest, tokens ++ after), rfl, ?_⟩
  refine except_bind_eq_ok_iff.mpr ⟨(comp, after), takeComp_complete hcomp hjump.stopsComp, ?_⟩
  exact except_bind_eq_ok_iff.mpr ⟨(jump, []), takeJump_complete hjump, rfl⟩

/-! ## A line -/

theorem takeLabel_sound {tokens : List Token} {command : Command}
    (h : takeLabel tokens = .ok (command, [])) :
    Derives (.operator .openParen :: tokens) command := by
  unfold takeLabel at h
  split at h
  · cases h
    exact .label _
  · cases h
    exact .openLabel _
  · cases h

theorem takeCommand_sound {tokens : List Token} {command : Command}
    (h : takeCommand tokens = .ok (command, [])) : Derives tokens command := by
  unfold takeCommand at h
  split at h
  · obtain ⟨⟨symbol, rest⟩, hsymbol, hrest⟩ := except_bind_eq_ok_iff.mp h
    cases hrest
    obtain ⟨v, hv, rfl⟩ := takeOperand_sound hsymbol
    exact .address hv
  · exact takeLabel_sound h
  · exact takeCompute_sound h

theorem takeCommand_complete {tokens : List Token} {command : Command}
    (h : Derives tokens command) : takeCommand tokens = .ok (command, []) := by
  -- A computation begins neither with `@` nor with `(`, so it is read as one.
  have computation {tokens after : List Token} {comp : String} (h : IsComp false tokens comp) :
      takeCommand (tokens ++ after) = takeCompute (tokens ++ after) := by
    cases h with
    | single hv => cases hv <;> rfl
    | unary sign hv => rcases sign with rfl | rfl <;> rfl
    | binary hop assign hv hw => cases hv <;> rfl
  cases h with
  | address hv =>
    rw [takeCommand, takeAddress, takeOperand_complete hv]
    rfl
  | openLabel name => rfl
  | label name => rfl
  | compute hcomp hjump => rw [computation hcomp, takeCompute_of_isComp hcomp hjump]
  | assign hcomp hjump => exact takeCompute_of_assign hcomp hjump

theorem derives_of_ofTokens {tokens : List Token} {command : Command}
    (h : ofTokens tokens = .ok command) : Derives tokens command := by
  unfold ofTokens at h
  split at h
  · cases h
  · split at h
    · cases h
    · rename_i hcommand
      cases h
      exact takeCommand_sound hcommand
    · cases h

theorem ofTokens_of_derives {tokens : List Token} {command : Command}
    (h : Derives tokens command) : ofTokens tokens = .ok command := by
  have hvalid : tokens.find? Token.isInvalid = none := by
    rw [List.find?_eq_none]
    intro token htoken
    simp [h.isInvalid_eq_false token htoken]
  rw [ofTokens, hvalid]
  simp only [takeCommand_complete h]

/-- A label is named by an identifier of its line. -/
theorem identifier_mem_of_label {tokens : List Token} {name : String}
    (h : ofTokens tokens = .ok (.label name)) : .identifier name ∈ tokens := by
  cases derives_of_ofTokens h <;> simp

/-- An address is written as an operand of its line. -/
theorem operand_mem_of_address {tokens : List Token} {symbol : String}
    (h : ofTokens tokens = .ok (.address symbol)) : ∃ v ∈ tokens, IsOperand v symbol := by
  cases derives_of_ofTokens h with
  | @address v _ hv => exact ⟨v, by simp, hv⟩

end Command

end HackAssembler
