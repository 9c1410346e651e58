/-
  HackAssembler.Proofs.Program.Extension

  Code behind a program. Statements that come behind others can change what these mean only by
  declaring a symbol that is used there. Otherwise the symbols keep their values, since variables
  are counted from the front; the words of the program stay, and so do the addresses of all names
  that are not declared behind it.
-/
import HackAssembler.Proofs.Line.Append
import HackAssembler.Proofs.Program.Words

namespace HackAssembler

namespace Statement

/-! ## Statements behind others -/

variable {statements more : List Statement}

theorem declaration?_append_of_not_mem {name : String} (h : name ∉ declared more) :
    declaration? name (statements ++ more) = declaration? name statements := by
  rw [declaration?_append, declaration?_eq_none_iff.mpr h]

/-- The variables of the statements in front are those that they have without the others. -/
theorem variablesIn_append_left (h : ∀ name ∈ used statements, name ∉ declared more) :
    variablesIn (statements ++ more) statements = variableNames statements := by
  rw [variablesIn, variableUses, variableNames]
  congr 1
  apply List.filter_congr
  intro name hname
  simp [declared_append, h name hname]

/-- A name that is not declared behind a program keeps its value. -/
theorem value_append (h : ∀ name ∈ used statements, name ∉ declared more) {name : String}
    (hdeclared : name ∉ declared more)
    (hvariable : fixedAddress? statements name = none → Text.isDecimal name = false →
      name ∈ used statements) :
    value (statements ++ more) name = value statements name := by
  cases hdecimal : Text.isDecimal name with
  | true => exact value_eq_of_isDecimal _ _ hdecimal
  | false =>
    refine value_congr hdecimal hdecimal (declaration?_append_of_not_mem hdeclared) rfl ?_
    intro hfixed
    obtain ⟨hfree, hreserved⟩ := fixedAddress?_eq_none_iff.mp hfixed
    have hmem : name ∈ variablesIn (statements ++ more) statements := by
      rw [variablesIn_append_left h, variableNames_eq, mem_variablesIn]
      exact ⟨hvariable hfixed hdecimal, hfree, hreserved⟩
    rw [idxOf_variableNames rfl hmem, variablesIn_append_left h]

/-- The statements in front match themselves. -/
theorem matches_append (h : ∀ name ∈ used statements, name ∉ declared more)
    {statement : Statement} (hmem : statement ∈ statements) :
    Matches statements (statements ++ more) statement.command statement.command := by
  apply matches_self
  intro symbol hcommand hdecimal
  have hused : symbol ∈ used statements := mem_used.mpr ⟨hdecimal, statement, hmem, hcommand⟩
  exact value_append h (h symbol hused) fun _ _ => hused

end Statement

open Statement (declared used variableNames)

namespace Program

variable {statements more : List Statement}

/-! ## Programs with code behind them -/

/-- A program with statements behind it that declare none of its symbols is accepted without
    them. -/
theorem acceptance_of_append {lines others : List Line}
    (hreads : List.Forall₂ Line.Reads lines statements)
    (hothers : List.Forall₂ Line.Reads others more)
    (h : ∀ name ∈ used statements, name ∉ declared more)
    (haccept : Acceptance (lines ++ others) (statements ++ more)) :
    Acceptance lines statements := by
  obtain ⟨hreach, hwords⟩ := (acceptance_iff (List.rel_append hreads hothers)).mp haccept
  refine (acceptance_iff hreads).mpr ⟨hreach.of_append, fun statement hstatement => ?_⟩
  rw [Statement.instructions_append] at hwords
  obtain ⟨text, htext⟩ := hwords statement (List.mem_append_left _ hstatement)
  have hmatch := Statement.matches_append h (List.mem_of_mem_filter hstatement)
  exact ⟨text, hmatch.symm.wordText htext⟩

variable {first program : Program}

/-- The words of a program are the first ones if there are statements behind it. -/
theorem Means.words_isPrefix (hfirst : first.Means statements)
    (hprogram : program.Means (statements ++ more))
    (h : ∀ name ∈ used statements, name ∉ declared more) : first.words <+: program.words := by
  have hwords := hprogram.words
  rw [Statement.instructions_append, List.zipIdx_append] at hwords
  obtain ⟨front, back, hsplit, hfront, -⟩ := exists_append_of_forall₂ hwords
  -- The first instructions have the same places in both programs, and match themselves.
  have hmatches : List.Forall₂ (fun statement other => statement = other ∧
        Statement.Matches statements (statements ++ more) statement.command other.command)
      (Statement.instructions statements) (Statement.instructions statements) :=
    List.forall₂_same.mpr fun statement hstatement =>
      ⟨rfl, Statement.matches_append h (List.mem_of_mem_filter hstatement)⟩
  have hsame : List.Forall₂ Eq first.words front := by
    refine Word.forall₂_of_belongsTo ?_ hmatches hfirst.words hfront
    rintro statement other index word next ⟨rfl, hmatch⟩ hword hnext
    have hbits := hword.bits_eq hnext hmatch
    have haddress := hnext.address.trans hword.address.symm
    have hline := hnext.line.trans hword.line.symm
    have hcommand := hnext.command.trans hword.command.symm
    cases word
    cases next
    simp_all
  rw [List.forall₂_eq_eq_eq] at hsame
  rw [hsplit, hsame]
  exact List.prefix_append front back

/-- A name that is not declared behind a program keeps its address. -/
theorem Means.get?_of_append (hfirst : first.Means statements)
    (hprogram : program.Means (statements ++ more))
    (h : ∀ name ∈ used statements, name ∉ declared more) {name : String}
    (hdeclared : name ∉ declared more) {address : Address}
    (hbound : first.symbols.get? name = some address) :
    program.symbols.get? name = some address := by
  have hname : isReserved name = true ∨ name ∈ declared statements ∨
      name ∈ variableNames statements :=
    (hfirst.bound name).mp (by rw [hbound]; rfl)
  -- A variable of the first statements is one of all of them.
  have hbound' : (program.symbols.get? name).isSome = true := by
    rw [hprogram.bound, Statement.declared_append, Statement.variableNames_eq,
      Statement.variablesIn_append, Statement.variablesIn_append_left h]
    rcases hname with hreserved | hdeclared | hvariable
    · exact .inl hreserved
    · exact .inr (.inl (List.mem_append_left _ hdeclared))
    · exact .inr (.inr (List.mem_append_left _ hvariable))
  obtain ⟨other, hother⟩ := Option.isSome_iff_exists.mp hbound'
  have hvalue : Statement.value (statements ++ more) name = Statement.value statements name := by
    refine Statement.value_append h hdeclared fun hfixed _ => ?_
    obtain ⟨hfree, hreserved⟩ := Statement.fixedAddress?_eq_none_iff.mp hfixed
    have hvariable : name ∈ variableNames statements := by simp_all
    exact (Statement.mem_variablesIn.mp hvariable).1
  have hsame : other = address := by
    apply BitVec.eq_of_toNat_eq
    rw [hprogram.address name other hother, hfirst.address name address hbound, hvalue]
  rw [hother, hsame]

/-! ## Main result -/

/-- Code behind a program leaves it as it is, unless it declares a symbol that the program uses. If
    the whole source is assembled, then so is its first part alone; the words of the first part are
    the first words of the whole, and each of its names that is not declared behind it has the
    same address in both. -/
theorem assemble_extended {source more : String} {program : Program}
    (hapart : ∀ line ∈ Line.ofSource more, ∀ name,
      Command.ofTokens line.tokens = .ok (.label name) →
      ∀ other ∈ Line.ofSource source, Command.ofTokens other.tokens ≠ .ok (.address name))
    (h : (assemble (source ++ "\n" ++ more)).result = .ok program) :
    ∃ first, (assemble source).result = .ok first ∧ first.words <+: program.words ∧
      ∀ name address,
        (∀ line ∈ Line.ofSource more, Command.ofTokens line.tokens ≠ .ok (.label name)) →
        first.symbols.get? name = some address → program.symbols.get? name = some address := by
  obtain ⟨found, haccept, hmeans⟩ := acceptance_of_assemble h
  rw [Line.ofSource_append] at haccept
  obtain ⟨statements, others, rfl, hreads, hothers⟩ := exists_append_of_forall₂ haccept.reads
  have hdeclared (name : String) : name ∈ declared others ↔
      ∃ line ∈ Line.ofSource more, Command.ofTokens line.tokens = .ok (.label name) := by
    rw [Statement.mem_declared, Statement.exists_command_iff_of_reads hothers]
    simp only [List.mem_map, exists_exists_and_eq_and, Line.renumber]
  have happart : ∀ name ∈ used statements, name ∉ declared others := by
    intro name hname hlabel
    obtain ⟨line, hline, hlabel⟩ := (hdeclared name).mp hlabel
    obtain ⟨other, hother, haddress⟩ :=
      (Statement.exists_command_iff_of_reads hreads _).mp (Statement.mem_used.mp hname).2
    exact hapart line hline name hlabel other hother haddress
  obtain ⟨first, hfirst, hmeans'⟩ :=
    assemble_of_acceptance (acceptance_of_append hreads hothers happart haccept)
  refine ⟨first, hfirst, hmeans'.words_isPrefix hmeans happart, fun name address hname => ?_⟩
  have hnot : name ∉ declared others := by
    rw [hdeclared]
    rintro ⟨line, hline, hlabel⟩
    exact hname line hline hlabel
  exact hmeans'.get?_of_append hmeans happart hnot

/-- Code with a label, a variable and a jump behind a loop that has a variable too. -/
theorem assemble_extended_loop :
    let source := "@x\n(L)\n@L"
    let more := "(M)\n@y\n0;JMP"
    ∃ program, (assemble (source ++ "\n" ++ more)).result = .ok program ∧
      ∃ first, (assemble source).result = .ok first ∧ first.words <+: program.words ∧
        ∀ name address,
          (∀ line ∈ Line.ofSource more, Command.ofTokens line.tokens ≠ .ok (.label name)) →
          first.symbols.get? name = some address → program.symbols.get? name = some address := by
  intro source more
  have hmore : ∀ line ∈ Line.ofSource more, Command.ofTokens line.tokens ∈
      [.ok (.label "M"), .ok (.address "y"), .ok (.compute none "0" (some "JMP"))] := by
    decide +kernel
  have hsource : ∀ line ∈ Line.ofSource source, Command.ofTokens line.tokens ∈
      [.ok (.address "x"), .ok (.label "L"), .ok (.address "L")] := by
    decide +kernel
  have hapart : ∀ line ∈ Line.ofSource more, ∀ name,
      Command.ofTokens line.tokens = .ok (.label name) →
      ∀ other ∈ Line.ofSource source, Command.ofTokens other.tokens ≠ .ok (.address name) := by
    intro line hline name hlabel other hother haddress
    have hname := hmore line hline
    have hname' := hsource other hother
    rw [hlabel] at hname
    rw [haddress] at hname'
    simp_all
  have hfine : (assemble (source ++ "\n" ++ more)).result.isOk = true := by decide +kernel
  obtain ⟨program, hresult⟩ := exists_eq_ok_of_isOk hfine
  exact ⟨program, hresult, assemble_extended hapart hresult⟩

end Program

end HackAssembler
