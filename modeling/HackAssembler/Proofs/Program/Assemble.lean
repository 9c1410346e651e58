/-
  HackAssembler.Proofs.Program.Assemble

  What assembling a source comes to. A program is what its statements mean: `Program.Means` says it
  of the whole program at once, with forward references, names declared again and variables in the
  order of their first use. A source is rejected because of its first fault: `Program.Rejection`
  names the line and the error, and faults for the labels come first, whatever their lines.
-/
import HackAssembler.Program.Assemble
import HackAssembler.Proofs.Program.Emission

namespace HackAssembler.Program

open Statement (fixedAddress? variableAddress? declared variableNames value)

/-! ## The two turns -/

theorem result_ofLines_of_labels_error {lines : List Line} {error : Error}
    (h : (Labels.ofLines lines).result = .error error) : (ofLines lines).result = .error error := by
  rw [ofLines, Report.result_bind_of_ok (Report.result_tell _), Report.result_bind_of_error h]

theorem result_ofLines_of_emission_error {lines : List Line} {labels : Labels} {error : Error}
    (hlabels : (Labels.ofLines lines).result = .ok labels)
    (h : (Emission.ofLines labels.symbols lines).result = .error error) :
    (ofLines lines).result = .error error := by
  rw [ofLines, Report.result_bind_of_ok (Report.result_tell _), Report.result_bind_of_ok hlabels,
    Report.result_bind_of_ok (Report.result_tell _), Report.result_bind_of_error h]

theorem result_ofLines_of_ok {lines : List Line} {labels : Labels} {emission : Emission}
    (hlabels : (Labels.ofLines lines).result = .ok labels)
    (h : (Emission.ofLines labels.symbols lines).result = .ok emission) :
    (ofLines lines).result = .ok ⟨emission.words.toList, emission.symbols⟩ := by
  rw [ofLines, Report.result_bind_of_ok (Report.result_tell _), Report.result_bind_of_ok hlabels,
    Report.result_bind_of_ok (Report.result_tell _), Report.result_bind_of_ok h]
  rfl

/-! ## Rejected and accepted sources -/

/-- A line of a source is the reason why the source is rejected with an error. -/
inductive Rejection (lines : List Line) (line : Line) (error : Error) : Prop where
  /-- The line is the first with a fault for the labels. -/
  | labels (first : FirstFault LabelFault lines line error)
  /-- No line has a fault for the labels, and the line is the first with a fault for the words. -/
  | words {statements : List Statement} (reads : List.Forall₂ Line.Reads lines statements)
      (collected : Faultless LabelFault lines)
      (first : FirstFault (fun _ line error => WordFault statements line error) lines line error)

/-- Each line of a source has its statement, and no line is at fault. -/
structure Acceptance (lines : List Line) (statements : List Statement) : Prop where
  reads : List.Forall₂ Line.Reads lines statements
  collected : Faultless LabelFault lines
  emitted : Faultless (fun _ line error => WordFault statements line error) lines

theorem Rejection.line? {lines : List Line} {line : Line} {error : Error}
    (h : Rejection lines line error) : error.line? = some line.number := by
  cases h with
  | labels first =>
    obtain ⟨before, after, -, -, hfault⟩ := first
    exact hfault.line?
  | words _ _ first =>
    obtain ⟨before, after, -, -, hfault⟩ := first
    exact hfault.line?

theorem Rejection.mem {lines : List Line} {line : Line} {error : Error}
    (h : Rejection lines line error) : line ∈ lines := by
  cases h with
  | labels first => exact first.mem
  | words _ _ first => exact first.mem

variable {lines : List Line}

/-- A source is rejected for a reason, or there is none. -/
theorem exists_rejection_or_acceptance (hne : ∀ line ∈ lines, line.tokens ≠ []) :
    (∃ line error, Rejection lines line error) ∨ ∃ statements, Acceptance lines statements := by
  by_cases hlabels : Faultless LabelFault lines
  · obtain ⟨statements, labels, hreads, -, -⟩ := Labels.ofLines_of_faultless hne hlabels
    by_cases hwords : Faultless (fun _ line error => WordFault statements line error) lines
    · exact .inr ⟨statements, hreads, hlabels, hwords⟩
    · obtain ⟨line, error, hfirst⟩ := exists_firstFault hwords
      exact .inl ⟨line, error, .words hreads hlabels hfirst⟩
  · obtain ⟨line, error, hfirst⟩ := exists_firstFault hlabels
    exact .inl ⟨line, error, .labels hfirst⟩

theorem result_ofLines_of_rejection (hne : ∀ line ∈ lines, line.tokens ≠ [])
    (hlexeme : ∀ line ∈ lines, ∀ token ∈ line.tokens, token.IsLexeme) {line : Line} {error : Error}
    (h : Rejection lines line error) : (ofLines lines).result = .error error := by
  cases h with
  | labels first => exact result_ofLines_of_labels_error (Labels.ofLines_of_firstFault hne first)
  | @words statements reads collected first =>
    obtain ⟨other, labels, hreads, hlabels, hcollects⟩ := Labels.ofLines_of_faultless hne collected
    obtain rfl := Statement.eq_of_reads hreads reads
    exact result_ofLines_of_emission_error hlabels
      (Emission.ofLines_of_firstFault hreads hcollects hlexeme first)

/-- An accepted source comes to what its labels and then its words come to. -/
theorem exists_follows_of_acceptance (hne : ∀ line ∈ lines, line.tokens ≠ [])
    (hlexeme : ∀ line ∈ lines, ∀ token ∈ line.tokens, token.IsLexeme)
    {statements : List Statement} (h : Acceptance lines statements) :
    ∃ (labels : Labels) (emission : Emission), labels.Collects statements ∧
      Emission.Follows statements statements emission ∧
      (ofLines lines).result = .ok ⟨emission.words.toList, emission.symbols⟩ := by
  obtain ⟨other, labels, hreads, hlabels, hcollects⟩ := Labels.ofLines_of_faultless hne h.collected
  obtain rfl := Statement.eq_of_reads hreads h.reads
  obtain ⟨emission, hemission, hfollows⟩ :=
    Emission.ofLines_of_faultless hreads hcollects hlexeme h.emitted
  exact ⟨labels, emission, hcollects, hfollows, result_ofLines_of_ok hlabels hemission⟩

/-! ## Meaning -/

/-- A program is what its statements mean: it has a word for each instruction, in order, and its
    symbols are the reserved names, the labels and the variables, each with its value. -/
structure Means (statements : List Statement) (program : Program) : Prop where
  words : List.Forall₂ (Word.BelongsTo statements) (Statement.instructions statements).zipIdx
    program.words
  bound : ∀ name, (program.symbols.get? name).isSome = true ↔
    isReserved name = true ∨ name ∈ declared statements ∨ name ∈ variableNames statements
  address : ∀ name address, program.symbols.get? name = some address →
    address.toNat = value statements name

theorem isDecimal_of_isReserved {name : String} (h : isReserved name = true) :
    Text.isDecimal name = false := by
  have hreserved : ∀ entry ∈ reservedSymbols, Text.isDecimal entry.1 = false := by decide
  obtain ⟨entry, hmem, hname⟩ := List.any_eq_true.mp h
  rw [← eq_of_beq hname]
  exact hreserved entry hmem

/-- No label is a number. -/
theorem isDecimal_of_mem_declared {statements : List Statement}
    (hreads : List.Forall₂ Line.Reads lines statements)
    (hlexeme : ∀ line ∈ lines, ∀ token ∈ line.tokens, token.IsLexeme) {name : String}
    (h : name ∈ declared statements) : Text.isDecimal name = false := by
  obtain ⟨statement, hmem, hcommand⟩ := Statement.mem_declared.mp h
  obtain ⟨line, hline, hreads⟩ := exists_of_forall₂_of_mem hreads hmem
  exact hreads.isDecimal_of_label (hlexeme line hline) hcommand

/-- No label and no reserved name is a number. -/
theorem isDecimal_of_fixedAddress? {statements : List Statement}
    (hreads : List.Forall₂ Line.Reads lines statements)
    (hlexeme : ∀ line ∈ lines, ∀ token ∈ line.tokens, token.IsLexeme) {name : String}
    {address : Address} (h : fixedAddress? statements name = some address) :
    Text.isDecimal name = false := by
  by_cases hreserved : isReserved name = true
  · exact isDecimal_of_isReserved hreserved
  · have hdeclared : name ∈ declared statements := by
      by_contra hnot
      rw [Statement.fixedAddress?_eq_none_iff.mpr ⟨hnot, by simpa using hreserved⟩] at h
      cases h
    exact isDecimal_of_mem_declared hreads hlexeme hdeclared

variable {statements : List Statement} {emission : Emission}

/-- The names of the table are the reserved ones, the labels and the variables. -/
theorem isSome_get?_of_follows (hfollows : Emission.Follows statements statements emission)
    (name : String) :
    (emission.symbols.get? name).isSome = true ↔
      isReserved name = true ∨ name ∈ declared statements ∨ name ∈ variableNames statements := by
  rw [hfollows.symbols, Option.isSome_or, Bool.or_eq_true, Statement.variableNames_eq]
  cases hfixed : fixedAddress? statements name with
  | some address =>
    have hname : ¬ (name ∉ declared statements ∧ isReserved name = false) := by
      rw [← Statement.fixedAddress?_eq_none_iff, hfixed]
      simp
    by_cases hdeclared : name ∈ declared statements
    · simp [hdeclared]
    · simp_all
  | none =>
    obtain ⟨hdeclared, hreserved⟩ := Statement.fixedAddress?_eq_none_iff.mp hfixed
    simp [hdeclared, hreserved, variableAddress?]

/-- The addresses of the table are the values of their names. -/
theorem toNat_of_follows (hreads : List.Forall₂ Line.Reads lines statements)
    (hlexeme : ∀ line ∈ lines, ∀ token ∈ line.tokens, token.IsLexeme)
    (hfit : Statement.LabelsFit statements)
    (hfollows : Emission.Follows statements statements emission) {name : String}
    {address : Address} (h : emission.symbols.get? name = some address) :
    address.toNat = value statements name := by
  rw [hfollows.symbols] at h
  cases hfixed : fixedAddress? statements name with
  | some fixed =>
    rw [hfixed, Option.some_or] at h
    obtain rfl := Option.some.inj h
    have hdecimal := isDecimal_of_fixedAddress? hreads hlexeme hfixed
    exact (Statement.value_of_fixedAddress? hfit hdecimal hfixed).symm
  | none =>
    rw [hfixed, Option.none_or, variableAddress?] at h
    split at h
    · rename_i hmem
      obtain rfl := Option.some.inj h
      have hdecimal := (Statement.mem_used.mp (Statement.mem_variablesIn.mp hmem).1).1
      -- The variables lie below the next one, which is an address.
      have hidx := List.idxOf_lt_length_of_mem hmem
      have hnext := hfollows.nextVariable
      have hbounded := hfollows.bounded
      rw [Statement.value_of_variable hdecimal hfixed, Statement.variableNames_eq,
        BitVec.toNat_ofNat, Nat.mod_eq_of_lt (by omega)]
    · cases h

theorem means_of_follows (hreads : List.Forall₂ Line.Reads lines statements)
    (hlexeme : ∀ line ∈ lines, ∀ token ∈ line.tokens, token.IsLexeme)
    (hfit : Statement.LabelsFit statements)
    (hfollows : Emission.Follows statements statements emission) :
    Means statements ⟨emission.words.toList, emission.symbols⟩ where
  words := hfollows.words
  bound := isSome_get?_of_follows hfollows
  address _ _ := toNat_of_follows hreads hlexeme hfit hfollows

/-! ## Source texts -/

theorem tokens_ne_nil_of_mem (source : String) :
    ∀ line ∈ Line.ofSource source, line.tokens ≠ [] :=
  fun _ hline => (Line.mem_ofSource_iff.mp hline).tokens_ne_nil

theorem isLexeme_of_mem (source : String) :
    ∀ line ∈ Line.ofSource source, ∀ token ∈ line.tokens, token.IsLexeme :=
  fun _ hline => (Line.mem_ofSource_iff.mp hline).isLexeme

theorem assemble_of_rejection {source : String} {line : Line} {error : Error}
    (h : Rejection (Line.ofSource source) line error) : (assemble source).result = .error error :=
  result_ofLines_of_rejection (tokens_ne_nil_of_mem _) (isLexeme_of_mem _) h

/-- What is accepted is assembled to what it means. -/
theorem assemble_of_acceptance {source : String} {statements : List Statement}
    (h : Acceptance (Line.ofSource source) statements) :
    ∃ program, (assemble source).result = .ok program ∧ Means statements program := by
  obtain ⟨labels, emission, hcollects, hfollows, hresult⟩ :=
    exists_follows_of_acceptance (tokens_ne_nil_of_mem _) (isLexeme_of_mem _) h
  exact ⟨_, hresult, means_of_follows h.reads (isLexeme_of_mem _) hcollects.fit hfollows⟩

/-- What fails has a reason. -/
theorem rejection_of_assemble {source : String} {error : Error}
    (h : (assemble source).result = .error error) :
    ∃ line, Rejection (Line.ofSource source) line error := by
  rcases exists_rejection_or_acceptance (tokens_ne_nil_of_mem source) with
    ⟨line, other, hline⟩ | ⟨statements, haccept⟩
  · rw [assemble_of_rejection hline] at h
    exact ⟨line, Except.error.inj h ▸ hline⟩
  · obtain ⟨program, hprogram, -⟩ := assemble_of_acceptance haccept
    rw [hprogram] at h
    cases h

/-- What succeeds is accepted, and the program is what was accepted. -/
theorem acceptance_of_assemble {source : String} {program : Program}
    (h : (assemble source).result = .ok program) :
    ∃ statements, Acceptance (Line.ofSource source) statements ∧ Means statements program := by
  rcases exists_rejection_or_acceptance (tokens_ne_nil_of_mem source) with
    ⟨line, error, hline⟩ | ⟨statements, haccept⟩
  · rw [assemble_of_rejection hline] at h
    cases h
  · obtain ⟨other, hother, hmeans⟩ := assemble_of_acceptance haccept
    rw [h] at hother
    obtain rfl := Except.ok.inj hother
    exact ⟨statements, haccept, hmeans⟩

/-! ## Main results -/

/-- An assembled program is what the statements of its source mean. They stand on the lines of the
    source that hold tokens, one on each line, in the order of the lines. -/
theorem assemble_means {source : String} {program : Program}
    (h : (assemble source).result = .ok program) :
    ∃ lines statements, (∀ line, line ∈ lines ↔ line.StandsIn source) ∧
      lines.Pairwise (fun line next => line.number < next.number) ∧
      List.Forall₂ Line.Reads lines statements ∧ Means statements program := by
  obtain ⟨statements, haccept, hmeans⟩ := acceptance_of_assemble h
  exact ⟨Line.ofSource source, statements, fun _ => Line.mem_ofSource_iff,
    Line.pairwise_ofSource source, haccept.reads, hmeans⟩

/-- A variable, and a label that is declared behind its use. -/
theorem assemble_means_forward :
    ∃ program, (assemble "@count // 16\n\n  @END\n0;JMP\n(END)\n").result = .ok program ∧
      ∃ lines statements,
        (∀ line, line ∈ lines ↔ line.StandsIn "@count // 16\n\n  @END\n0;JMP\n(END)\n") ∧
        lines.Pairwise (fun line next => line.number < next.number) ∧
        List.Forall₂ Line.Reads lines statements ∧ Means statements program := by
  have hfine : (assemble "@count // 16\n\n  @END\n0;JMP\n(END)\n").result.isOk = true := by
    decide +kernel
  obtain ⟨program, hresult⟩ := exists_eq_ok_of_isOk hfine
  exact ⟨program, hresult, assemble_means hresult⟩

/-- A source is rejected with an error exactly if the error is that of its first fault, which
    stands on a line of the source; and it is assembled exactly if there is no fault. The lines are
    those of the source that hold tokens, in order. -/
theorem assemble_outcome (source : String) :
    ∃ lines, (∀ line, line ∈ lines ↔ line.StandsIn source) ∧
      lines.Pairwise (fun line next => line.number < next.number) ∧
      (∀ error, (assemble source).result = .error error ↔ ∃ line, Rejection lines line error) ∧
      ((∃ program, (assemble source).result = .ok program) ↔
        ∃ statements, Acceptance lines statements) ∧
      ∀ line error, Rejection lines line error →
        line.StandsIn source ∧ error.line? = some line.number := by
  refine ⟨Line.ofSource source, fun _ => Line.mem_ofSource_iff, Line.pairwise_ofSource source,
    fun error => ⟨rejection_of_assemble, ?_⟩, ⟨?_, ?_⟩, ?_⟩
  · rintro ⟨line, hline⟩
    exact assemble_of_rejection hline
  · rintro ⟨program, hprogram⟩
    obtain ⟨statements, haccept, -⟩ := acceptance_of_assemble hprogram
    exact ⟨statements, haccept⟩
  · rintro ⟨statements, haccept⟩
    obtain ⟨program, hprogram, -⟩ := assemble_of_acceptance haccept
    exact ⟨program, hprogram⟩
  · intro line error hline
    exact ⟨Line.mem_ofSource_iff.mp hline.mem, hline.line?⟩

end HackAssembler.Program
