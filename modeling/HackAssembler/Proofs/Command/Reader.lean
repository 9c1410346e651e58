/-
  HackAssembler.Proofs.Command.Reader

  What a reader makes of a line. The grammar decides: a line without invalid tokens is read as a
  command exactly if its tokens can be cut into the parts of that command, and there is at most one
  way to cut them (`IsReading.unique`), because each part of the reader takes exactly one part of
  the line.
-/
import HackAssembler.Command.Reader
import HackAssembler.Proofs.Command.Grammar
import Mathlib.Logic.Function.Iterate

namespace HackAssembler

/-! ## Readings and derivations -/

/-- The parts of a command, one behind the other, are derived from it. -/
theorem IsReading.derives {parts : List (List Token)} {command : Command}
    (h : IsReading parts command) : Derives parts.flatten command := by
  cases h with
  | address operand => exact .address operand
  | openLabel name => exact .openLabel name
  | label name => exact .label name
  | @compute before tokens after dest jump comp destination computation condition =>
    cases destination with
    | none =>
      have hparts : ([] :: tokens :: [after] : List (List Token)).flatten = tokens ++ after := by
        simp
      rw [hparts]
      exact .compute computation condition
    | some name =>
      have hparts : ([.identifier name, .operator .assign] :: tokens :: [after]).flatten =
          .identifier name :: .operator .assign :: (tokens ++ after) := by
        simp
      rw [hparts]
      exact .assign computation condition

/-- The tokens of a command can be cut into its parts. -/
theorem Derives.exists_reading {tokens : List Token} {command : Command}
    (h : Derives tokens command) : ∃ parts, IsReading parts command ∧ parts.flatten = tokens := by
  cases h with
  | address operand => exact ⟨_, .address operand, rfl⟩
  | openLabel name => exact ⟨_, .openLabel name, rfl⟩
  | label name => exact ⟨_, .label name, rfl⟩
  | compute computation condition => exact ⟨_, .compute .none computation condition, by simp⟩
  | assign computation condition => exact ⟨_, .compute (.some _) computation condition, by simp⟩

theorem derives_iff_exists_reading {tokens : List Token} {command : Command} :
    Derives tokens command ↔ ∃ parts, IsReading parts command ∧ parts.flatten = tokens := by
  constructor
  · intro h
    exact h.exists_reading
  · rintro ⟨parts, hparts, rfl⟩
    exact hparts.derives

/-! ## One reading at most -/

/-- Tokens form at most one command. -/
theorem Derives.unique {tokens : List Token} {command other : Command}
    (h : Derives tokens command) (h' : Derives tokens other) : command = other := by
  have hcommand := Command.ofTokens_of_derives h
  rw [Command.ofTokens_of_derives h'] at hcommand
  exact (Except.ok.inj hcommand).symm

theorem IsDest.unique {tokens others : List Token} {dest : Option String} (h : IsDest tokens dest)
    (h' : IsDest others dest) : tokens = others := by
  cases h with
  | none => cases h'; rfl
  | some name => cases h'; rfl

/-- The end of a computation is where its reader stops. -/
theorem IsComp.append_inj {allow allow' : Bool} {tokens after tokens' after' : List Token}
    {comp comp' : String} {jump jump' : Option String} (hcomp : IsComp allow tokens comp)
    (hcomp' : IsComp allow' tokens' comp') (hjump : IsJump after jump)
    (hjump' : IsJump after' jump') (h : tokens ++ after = tokens' ++ after') :
    tokens = tokens' ∧ after = after' := by
  have htaken := Command.takeComp_complete hcomp hjump.stopsComp
  have htaken' := Command.takeComp_complete hcomp' hjump'.stopsComp
  rw [h, htaken'] at htaken
  have hafter : after' = after := congrArg Prod.snd (Except.ok.inj htaken)
  subst hafter
  exact ⟨List.append_cancel_right h, rfl⟩

/-- A line is cut into the parts of a command in one way only. -/
theorem IsReading.unique {parts others : List (List Token)} {command other : Command}
    (h : IsReading parts command) (h' : IsReading others other)
    (hflatten : parts.flatten = others.flatten) : parts = others ∧ command = other := by
  have hcommand : command = other := h.derives.unique (hflatten ▸ h'.derives)
  subst hcommand
  refine ⟨?_, rfl⟩
  -- Both readings are of the same kind, since they are of the same command.
  cases h with
  | address operand =>
    cases h' with
    | address operand' => simpa using hflatten
  | openLabel name =>
    cases h' with
    | openLabel => rfl
    | label => simp at hflatten
  | label name =>
    cases h' with
    | openLabel => simp at hflatten
    | label => rfl
  | @compute before tokens after dest jump comp destination computation condition =>
    cases h' with
    | @compute before' tokens' after' _ _ _ destination' computation' condition' =>
      have hbefore : before = before' := destination.unique destination'
      subst hbefore
      have hrest : tokens ++ after = tokens' ++ after' := by simpa using hflatten
      obtain ⟨rfl, rfl⟩ := computation.append_inj computation' condition condition' hrest
      rfl

/-- An invalid token is reported before anything else, and the first of them is. -/
theorem Command.ofTokens_of_find? {tokens : List Token} {token : Token}
    (h : tokens.find? Token.isInvalid = some token) :
    ofTokens tokens = .error (.invalid token) := by
  rw [ofTokens, h]

/-! ## One line -/

theorem Line.command?_of_ok {line : Line} {command : Command} (hne : line.tokens ≠ [])
    (h : Command.ofTokens line.tokens = .ok command) : line.command? = .ok (some command) := by
  unfold Line.command?
  split
  · rename_i htokens
    exact absurd htokens hne
  · rw [h]

/-- A line that is refused has an error instead of a command. -/
theorem Line.command?_of_refused {line : Line} {fault : SyntaxFault} (hne : line.tokens ≠ [])
    (h : Command.ofTokens line.tokens = .error fault) :
    line.command? = .error (.malformed line.number fault.message) := by
  unfold Line.command?
  split
  · rename_i htokens
    exact absurd htokens hne
  · rw [h]

/-- A line is remarked on only if it holds a label without `)`. -/
theorem Line.remarks_eq {line : Line} (hne : line.tokens ≠ []) :
    line.remarks =
      (Command.unclosedLabel? line.tokens).toList.map (.unclosedLabel · line.number) := by
  unfold Line.remarks
  split
  · rename_i htokens
    exact absurd htokens hne
  · split
    · rename_i hlabel
      rw [hlabel]
      rfl
    · rename_i hlabel
      rw [hlabel]
      rfl

namespace Reader

/-! ## Reading the next line -/

variable {reader : Reader} {line : Line} {pending : List Line}

theorem advance_of_ok (hpending : reader.pending = line :: pending) {command : Option Command}
    (h : line.command? = .ok command) :
    reader.advance = (⟨line.remarks, .ok command.isSome⟩, ⟨pending, line.number, command⟩) := by
  have hread : line.read.result = .ok command := h
  unfold advance
  rw [hpending]
  simp only [hread]
  rfl

theorem advance_of_error (hpending : reader.pending = line :: pending) {error : Error}
    (h : line.command? = .error error) :
    reader.advance = (⟨line.remarks, .error error⟩, ⟨pending, line.number, none⟩) := by
  have hread : line.read.result = .error error := h
  unfold advance
  rw [hpending]
  simp only [hread]
  rfl

/-- A line with tokens is read as the command that they form. -/
theorem advance_of_command (hpending : reader.pending = line :: pending) {command : Command}
    (h : Command.ofTokens line.tokens = .ok command) :
    reader.advance = (⟨line.remarks, .ok true⟩, ⟨pending, line.number, some command⟩) := by
  have hne : line.tokens ≠ [] := (Command.derives_of_ofTokens h).ne_nil
  exact advance_of_ok hpending (line.command?_of_ok hne h)

/-- A line with tokens that form no command is refused, and the reader has no command then. -/
theorem advance_of_fault (hpending : reader.pending = line :: pending) (hne : line.tokens ≠ [])
    {fault : SyntaxFault} (h : Command.ofTokens line.tokens = .error fault) :
    reader.advance = (⟨line.remarks, .error (.malformed line.number fault.message)⟩,
      ⟨pending, line.number, none⟩) :=
  advance_of_error hpending (line.command?_of_refused hne h)

/-! ## Reading line after line -/

/-- Every call goes on to the next line, whatever is on this one. -/
theorem pending_advance (reader : Reader) : reader.advance.2.pending = reader.pending.tail := by
  cases hpending : reader.pending with
  | nil =>
    unfold advance
    rw [hpending]
    rfl
  | cons line pending =>
    cases hcommand : line.command? with
    | ok command => rw [advance_of_ok hpending hcommand, List.tail_cons]
    | error error => rw [advance_of_error hpending hcommand, List.tail_cons]

theorem pending_iterate_advance (count : Nat) (reader : Reader) :
    ((fun reader : Reader => reader.advance.2)^[count] reader).pending =
      reader.pending.drop count := by
  induction count generalizing reader with
  | zero => rfl
  | succ count ih => rw [Function.iterate_succ_apply, ih, pending_advance, List.drop_tail]

/-! ## Main result -/

/-- The next line of a reader is read by the grammar. With an invalid token it is refused, and the
    first such token is named. Otherwise it is read as a command exactly if its tokens are cut into
    the parts of this command, and refused if they cannot be cut into the parts of any. There is at
    most one way to cut them. -/
theorem advance_reads_grammar (hpending : reader.pending = line :: pending)
    (hne : line.tokens ≠ []) :
    (∀ token, line.tokens.find? Token.isInvalid = some token →
      reader.advance.1.result =
        .error (.malformed line.number s!"invalid token `{token.text}`")) ∧
    ((∀ token ∈ line.tokens, token.isInvalid = false) →
      (∀ command, (reader.advance.1.result = .ok true ∧ reader.advance.2.command = some command) ↔
        ∃ parts, IsReading parts command ∧ parts.flatten = line.tokens) ∧
      ((∀ parts command, IsReading parts command → parts.flatten ≠ line.tokens) →
        ∃ message, reader.advance.1.result = .error (.malformed line.number message))) ∧
    ∀ parts others command other, IsReading parts command → IsReading others other →
      parts.flatten = line.tokens → others.flatten = line.tokens →
        parts = others ∧ command = other := by
  refine ⟨?_, ?_, ?_⟩
  · intro token hfind
    rw [advance_of_fault hpending hne (Command.ofTokens_of_find? hfind)]
    rfl
  · intro hvalid
    refine ⟨?_, ?_⟩
    · intro command
      rw [← derives_iff_exists_reading]
      constructor
      · rintro ⟨hresult, hcommand⟩
        apply Command.derives_of_ofTokens
        -- What the reader holds is what the tokens of the line form.
        cases htokens : Command.ofTokens line.tokens with
        | error fault =>
          rw [advance_of_fault hpending hne htokens] at hresult
          cases hresult
        | ok found =>
          rw [advance_of_command hpending htokens] at hcommand
          exact congrArg Except.ok (Option.some.inj hcommand)
      · intro hderives
        rw [advance_of_command hpending (Command.ofTokens_of_derives hderives)]
        exact ⟨rfl, rfl⟩
    · intro hnone
      cases htokens : Command.ofTokens line.tokens with
      | ok command =>
        obtain ⟨parts, hparts, hflatten⟩ := (Command.derives_of_ofTokens htokens).exists_reading
        exact absurd hflatten (hnone parts command hparts)
      | error fault =>
        rw [advance_of_fault hpending hne htokens]
        exact ⟨fault.message, rfl⟩
  · intro parts others command other hparts hothers hflatten hflatten'
    exact hparts.unique hothers (hflatten.trans hflatten'.symm)

/-- Behind a destination a second `=` is an operator like any other. -/
theorem advance_reads_grammar_assign :
    (ofSource "\nD = A=M // twice").advance.1.result = .ok true ∧
      (ofSource "\nD = A=M // twice").advance.2.command =
        some (.compute (some "D") "A=M" none) := by
  have hpending : (ofSource "\nD = A=M // twice").pending =
      [⟨2, [.identifier "D", .operator .assign, .identifier "A", .operator .assign,
        .identifier "M"]⟩] := by
    decide +kernel
  have hgrammar := advance_reads_grammar hpending (by decide)
  have hcomp : IsComp true [.identifier "A", .operator .assign, .identifier "M"] "A=M" :=
    .binary (by decide) (fun _ => rfl) (.identifier "A") (.identifier "M")
  have hreading := IsReading.compute (.some "D") hcomp .none
  exact ((hgrammar.2.1 (by decide)).1 _).mpr ⟨_, hreading, rfl⟩

end Reader

end HackAssembler
