/-
  HackAssembler.Proofs.Program.Relabeling

  What a program takes from its labels. Of all declarations only the last one of a name counts, and
  only if an instruction refers to the name; so programs with the same instructions and the same
  references (`Statement.SameReferences`) have the same words. Dropping a label that is not needed,
  adding one, and changing the order of neighbours (`Statement.LabelEdit`) leave the references as
  they are.
-/
import HackAssembler.Proofs.Program.Words
import Mathlib.Logic.Relation

namespace HackAssembler

namespace Statement

/-! ## References -/

/-- Two programs with the same instructions, in which every symbol that is used refers to the same
    instruction if it is a label, and is a label in both or in none. -/
structure SameReferences (statements others : List Statement) : Prop where
  instructions : (instructions others).map Statement.command =
    (instructions statements).map Statement.command
  references : ∀ name ∈ used statements, declaration? name others = declaration? name statements

namespace SameReferences

variable {statements others : List Statement}

theorem refl (statements : List Statement) : SameReferences statements statements where
  instructions := rfl
  references _ _ := rfl

theorem symm (h : SameReferences statements others) : SameReferences others statements where
  instructions := h.instructions.symm
  references name hname := by
    rw [used_eq_of_instructions h.instructions] at hname
    exact (h.references name hname).symm

theorem trans {lasts : List Statement} (h : SameReferences statements others)
    (h' : SameReferences others lasts) : SameReferences statements lasts where
  instructions := h'.instructions.trans h.instructions
  references name hname := by
    have hname' := hname
    rw [← used_eq_of_instructions h.instructions] at hname'
    exact (h'.references name hname').trans (h.references name hname)

/-- The same symbols are variables. -/
theorem variableNames_eq (h : SameReferences statements others) :
    variableNames others = variableNames statements := by
  rw [variableNames, variableNames, used_eq_of_instructions h.instructions]
  congr 1
  apply List.filter_congr
  intro name hname
  -- A symbol is declared in both programs or in none.
  have hdeclared : name ∈ declared others ↔ name ∈ declared statements := by
    rw [← not_iff_not, ← declaration?_eq_none_iff, ← declaration?_eq_none_iff,
      h.references name hname]
  have hcontains : (declared others).contains name = (declared statements).contains name := by
    rw [Bool.eq_iff_iff, List.contains_iff_mem, List.contains_iff_mem, hdeclared]
  rw [hcontains]

/-- A symbol that is used has the same value in both programs. -/
theorem value_eq (h : SameReferences statements others) {symbol : String}
    (hused : symbol ∈ used statements) : value others symbol = value statements symbol := by
  have hdecimal := (mem_used.mp hused).1
  refine value_congr hdecimal hdecimal (h.references symbol hused) rfl fun _ => ?_
  rw [h.variableNames_eq]

/-- The instructions of both programs match. -/
theorem forall₂_matches (h : SameReferences statements others) :
    List.Forall₂ (fun statement other => other.command = statement.command ∧
        Matches statements others statement.command other.command)
      (Statement.instructions statements) (Statement.instructions others) := by
  have hcommands : List.Forall₂ (fun statement other => other.command = statement.command)
      (Statement.instructions statements) (Statement.instructions others) := by
    have heq := h.instructions.symm
    rw [← List.forall₂_eq_eq_eq, List.forall₂_map_left_iff, List.forall₂_map_right_iff] at heq
    exact heq.imp fun _ _ hcommand => hcommand.symm
  have hmem : ∀ statement ∈ Statement.instructions statements, statement ∈ statements :=
    fun _ hmem => List.mem_of_mem_filter hmem
  refine ((List.forall₂_and_left _ _).mpr ⟨hmem, hcommands⟩).imp ?_
  rintro statement other ⟨hstatement, hcommand⟩
  refine ⟨hcommand, ?_⟩
  rw [hcommand]
  exact matches_self fun symbol hsymbol hdecimal =>
    h.value_eq (mem_used.mpr ⟨hdecimal, statement, hstatement, hsymbol⟩)

end SameReferences

/-! ## Labels that come and go -/

/-- A change to the labels of a program. -/
inductive LabelEdit : List Statement → List Statement → Prop where
  /-- The same commands stand on other lines. -/
  | move {statements others : List Statement}
      (same : others.map Statement.command = statements.map Statement.command) :
      LabelEdit statements others
  /-- A label that no instruction refers to is dropped. -/
  | dropUnused {before after : List Statement} {label : Statement} {name : String}
      (declares : label.command = .label name) (unused : name ∉ used (before ++ after)) :
      LabelEdit (before ++ label :: after) (before ++ after)
  /-- A declaration is dropped that is not the last one of its name. -/
  | dropOverridden {before after : List Statement} {label : Statement} {name : String}
      (declares : label.command = .label name) (again : name ∈ declared after) :
      LabelEdit (before ++ label :: after) (before ++ after)
  /-- Two labels that follow each other change places. -/
  | swap {before after : List Statement} {first second : Statement} {name other : String}
      (declares : first.command = .label name) (declares' : second.command = .label other) :
      LabelEdit (before ++ first :: second :: after) (before ++ second :: first :: after)

/-- What is said of the commands alone does not depend on the lines. -/
theorem declaration?_eq_of_commands {statements others : List Statement}
    (h : others.map Statement.command = statements.map Statement.command) (name : String) :
    declaration? name others = declaration? name statements := by
  induction statements generalizing others with
  | nil => rw [List.map_eq_nil_iff.mp h]
  | cons statement statements ih =>
    cases others with
    | nil => cases h
    | cons other others =>
      rw [List.map_cons, List.map_cons, List.cons.injEq] at h
      rw [declaration?, declaration?, h.1, ih h.2]

theorem instructions_map_of_commands {statements others : List Statement}
    (h : others.map Statement.command = statements.map Statement.command) :
    (instructions others).map Statement.command =
      (instructions statements).map Statement.command := by
  have hfilter (statements : List Statement) : (instructions statements).map Statement.command =
      (statements.map Statement.command).filter Command.isInstruction := by
    rw [List.filter_map]
    rfl
  rw [hfilter, hfilter, h]

theorem instructions_cons_of_label {label : Statement} {name : String}
    (h : label.command = .label name) (statements : List Statement) :
    instructions (label :: statements) = instructions statements := by
  rw [instructions, List.filter_cons_of_neg (by simp [h, Command.isInstruction])]
  rfl

/-- A label in front does not count if its name is another one or is declared again. -/
theorem declaration?_cons_of_label {label : Statement} {declaredName name : String}
    (h : label.command = .label declaredName) {statements : List Statement}
    (hother : declaredName = name → name ∈ declared statements) :
    declaration? name (label :: statements) = declaration? name statements := by
  rw [declaration?, h]
  cases hlater : declaration? name statements with
  | some count => rfl
  | none =>
    have hne : declaredName ≠ name := by
      intro heq
      exact declaration?_eq_none_iff.mp hlater (hother heq)
    simp [hne]

theorem declaration?_cons_cons_of_labels {first second : Statement} {name other : String}
    (h : first.command = .label name) (h' : second.command = .label other)
    (statements : List Statement) (symbol : String) :
    declaration? symbol (second :: first :: statements) =
      declaration? symbol (first :: second :: statements) := by
  rw [declaration?, declaration?, declaration?, declaration?, h, h']
  cases declaration? symbol statements with
  | some count => rfl
  | none => by_cases hname : name = symbol <;> by_cases hother : other = symbol <;>
      simp [hname, hother, Command.isInstruction]

/-- A label is dropped that counts for no symbol that is used. -/
theorem sameReferences_of_drop {before after : List Statement} {label : Statement} {name : String}
    (declares : label.command = .label name)
    (h : name ∈ used (before ++ label :: after) → name ∈ declared after) :
    SameReferences (before ++ label :: after) (before ++ after) where
  instructions := by
    rw [instructions_append, instructions_append, instructions_cons_of_label declares]
  references symbol hsymbol := by
    rw [declaration?_append, declaration?_append, declaration?_cons_of_label declares]
    rintro rfl
    exact h hsymbol

theorem LabelEdit.sameReferences {statements others : List Statement}
    (h : LabelEdit statements others) : SameReferences statements others := by
  cases h with
  | move same => exact ⟨instructions_map_of_commands same, fun name _ =>
      declaration?_eq_of_commands same name⟩
  | @dropUnused before after label name declares unused =>
    have hused : used (before ++ after) = used (before ++ label :: after) := by
      apply used_eq_of_instructions
      rw [instructions_append, instructions_append, instructions_cons_of_label declares]
    exact sameReferences_of_drop declares fun hname => absurd (hused ▸ hname) unused
  | dropOverridden declares again => exact sameReferences_of_drop declares fun _ => again
  | swap declares declares' =>
    refine ⟨?_, fun symbol _ => ?_⟩
    · simp only [instructions_append, instructions_cons_of_label declares,
        instructions_cons_of_label declares']
    · rw [declaration?_append, declaration?_append,
        declaration?_cons_cons_of_labels declares declares']

/-- Any number of changes to labels, there and back, leaves the references as they are. -/
theorem sameReferences_of_eqvGen {statements others : List Statement}
    (h : Relation.EqvGen LabelEdit statements others) : SameReferences statements others := by
  induction h with
  | rel statements others hedit => exact hedit.sameReferences
  | refl statements => exact .refl statements
  | symm statements others _ ih => exact ih.symm
  | trans statements others lasts _ _ ih ih' => exact ih.trans ih'

end Statement

open Statement (SameReferences LabelEdit LabelsInReach)

namespace Program

/-- A program that is what its statements mean, and one with the same references. -/
theorem exists_program_of_sameReferences {source other : String}
    {statements others : List Statement} {program : Program}
    (hreads : List.Forall₂ Line.Reads (Line.ofSource source) statements)
    (hothers : List.Forall₂ Line.Reads (Line.ofSource other) others)
    (hsame : SameReferences statements others) (hreach : LabelsInReach others)
    (h : (assemble source).result = .ok program) :
    ∃ copy, (assemble other).result = .ok copy ∧
      List.Forall₂ (fun word next => next.address = word.address ∧ next.command = word.command ∧
        next.bits = word.bits) program.words copy.words := by
  obtain ⟨found, haccept, hmeans⟩ := acceptance_of_assemble h
  obtain rfl := Statement.eq_of_reads haccept.reads hreads
  have hmatches := hsame.forall₂_matches
  -- An instruction has the word of the one at its side.
  have haccept' : Acceptance (Line.ofSource other) others := by
    refine (acceptance_iff hothers).mpr ⟨hreach, fun copy hcopy => ?_⟩
    obtain ⟨statement, hstatement, -, hmatch⟩ := exists_of_forall₂_of_mem hmatches hcopy
    obtain ⟨text, htext⟩ := ((acceptance_iff hreads).mp haccept).2 statement hstatement
    exact ⟨text, hmatch.wordText htext⟩
  obtain ⟨copy, hcopy, hmeans'⟩ := assemble_of_acceptance haccept'
  refine ⟨copy, hcopy, Word.forall₂_of_belongsTo ?_ hmatches hmeans.words hmeans'.words⟩
  rintro statement other index word next ⟨hcommand, hmatch⟩ hword hnext
  exact ⟨hnext.address.trans hword.address.symm,
    hnext.command.trans (hcommand.trans hword.command.symm), hword.bits_eq hnext hmatch⟩

/-! ## Main result -/

/-- The words of a program depend on its labels only through the last declarations of the symbols
    that are used. Another source with the same instructions, in which each symbol that is used is
    declared last behind the same number of instructions or is declared in neither, is assembled to
    the same words if its labels are in reach. Labels that nobody refers to, declarations that are
    not the last of their name and the order of neighbouring labels never change these references. -/
theorem assemble_relabeled :
    (∀ (source other : String) (statements others : List Statement) (program : Program),
      Statement.ofLines (Line.ofSource source) = .ok statements →
      Statement.ofLines (Line.ofSource other) = .ok others →
      SameReferences statements others → LabelsInReach others →
      (assemble source).result = .ok program →
      ∃ copy, (assemble other).result = .ok copy ∧
        List.Forall₂ (fun word next => next.address = word.address ∧ next.command = word.command ∧
          next.bits = word.bits) program.words copy.words ∧
        copy.toText = program.toText) ∧
    ∀ statements others : List Statement,
      Relation.EqvGen LabelEdit statements others → SameReferences statements others := by
  refine ⟨?_, fun _ _ => Statement.sameReferences_of_eqvGen⟩
  intro source other statements others program hstatements hothers hsame hreach hprogram
  have hreads := Statement.reads_of_ofLines (tokens_ne_nil_of_mem source) hstatements
  have hreads' := Statement.reads_of_ofLines (tokens_ne_nil_of_mem other) hothers
  obtain ⟨copy, hcopy, hwords⟩ :=
    exists_program_of_sameReferences hreads hreads' hsame hreach hprogram
  exact ⟨copy, hcopy, hwords, toText_eq_of_bits (hwords.imp fun _ _ hword => hword.2.2)⟩

/-- A label that is not used, a declaration that is overridden, and two labels that change places
    before the jump. -/
theorem assemble_relabeled_jump :
    let source := "(OLD)\n@END\n(END)\n@x\n(TOP)\n(END)\n0;JMP\n"
    let other := "@END\n@x\n(END)\n(TOP)\n0;JMP\n"
    ∃ program copy, (assemble source).result = .ok program ∧ (assemble other).result = .ok copy ∧
      List.Forall₂ (fun word next => next.address = word.address ∧ next.command = word.command ∧
        next.bits = word.bits) program.words copy.words ∧
      copy.toText = program.toText := by
  intro source other
  let old : Statement := ⟨1, .label "OLD"⟩
  let first : Statement := ⟨2, .address "END"⟩
  let overridden : Statement := ⟨3, .label "END"⟩
  let second : Statement := ⟨4, .address "x"⟩
  let top : Statement := ⟨5, .label "TOP"⟩
  let last : Statement := ⟨6, .label "END"⟩
  let jump : Statement := ⟨7, .compute none "0" (some "JMP")⟩
  let others : List Statement := [⟨1, .address "END"⟩, ⟨2, .address "x"⟩, ⟨3, .label "END"⟩,
    ⟨4, .label "TOP"⟩, ⟨5, .compute none "0" (some "JMP")⟩]
  have hstatements : Statement.ofLines (Line.ofSource source) =
      .ok [old, first, overridden, second, top, last, jump] := by
    decide +kernel
  have hothers : Statement.ofLines (Line.ofSource other) = .ok others := by
    decide +kernel
  have hunused : LabelEdit [old, first, overridden, second, top, last, jump]
      [first, overridden, second, top, last, jump] :=
    @LabelEdit.dropUnused [] _ _ _ rfl (by decide +kernel)
  have hoverridden : LabelEdit [first, overridden, second, top, last, jump]
      [first, second, top, last, jump] :=
    @LabelEdit.dropOverridden [first] _ _ _ rfl (by decide)
  have hswap : LabelEdit [first, second, top, last, jump] [first, second, last, top, jump] :=
    @LabelEdit.swap [first, second] _ _ _ _ _ rfl rfl
  have hmove : LabelEdit [first, second, last, top, jump] others := .move rfl
  have hedits : Relation.EqvGen LabelEdit [old, first, overridden, second, top, last, jump] others :=
    .trans _ _ _ (.rel _ _ hunused) (.trans _ _ _ (.rel _ _ hoverridden)
      (.trans _ _ _ (.rel _ _ hswap) (.rel _ _ hmove)))
  have hreach : LabelsInReach others := by
    intro earlier statement later name hsplit _
    have hle : (Statement.instructions earlier).length ≤ earlier.length := List.length_filter_le ..
    have hlength : others.length = 5 := rfl
    rw [hsplit, List.length_append] at hlength
    omega
  have hfine : (assemble source).result.isOk = true := by decide +kernel
  obtain ⟨program, hprogram⟩ := exists_eq_ok_of_isOk hfine
  obtain ⟨copy, hcopy, hwords, htext⟩ := assemble_relabeled.1 source other _ _ program
    hstatements hothers (assemble_relabeled.2 _ _ hedits) hreach hprogram
  exact ⟨program, copy, hprogram, hcopy, hwords, htext⟩

end Program

end HackAssembler
