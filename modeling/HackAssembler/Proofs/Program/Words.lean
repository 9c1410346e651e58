/-
  HackAssembler.Proofs.Program.Words

  What the words of a program depend on. A source is accepted exactly if its labels are in reach and
  each of its instructions has a word (`Program.acceptance_iff`). Whether an instruction has a word,
  and which one, is settled by its command and by the value of the symbol that it loads; commands of
  two programs that match in this (`Statement.Matches`) have the same word or the same fault.
-/
import HackAssembler.Program.Renumbering
import HackAssembler.Proofs.Program.Assemble

namespace HackAssembler

open Instruction (compTable destTable jumpTable)

/-! ## Texts of words -/

namespace Statement

/-- A command has at most one word. -/
theorem WordText.unique {statements : List Statement} {command : Command}
    {text other : String} (h : WordText statements command text)
    (h' : WordText statements command other) : text = other := by
  cases h with
  | load => cases h' with
    | load => rfl
  | compute hcomp hdest hjump => cases h' with
    | compute hcomp' hdest' hjump' =>
      rw [hcomp] at hcomp'
      rw [hdest] at hdest'
      rw [hjump] at hjump'
      cases hcomp'
      cases hdest'
      cases hjump'
      rfl

/-- A command with a word is not at fault. -/
theorem WordText.not_wordFault {statements : List Statement} {command : Command}
    {text : String} (h : WordText statements command text) {line : Line}
    (hline : Command.ofTokens line.tokens = .ok command) (error : Error) :
    ¬ WordFault statements line error := by
  intro hfault
  have hsame {other : Command} (hother : Command.ofTokens line.tokens = .ok other) :
      command = other := by
    rw [hline] at hother
    exact Except.ok.inj hother
  -- A fault says that something is missing which the word is made of.
  cases hfault with
  | addressRange hloads hlarge =>
    obtain rfl := hsame hloads
    cases h with
    | load hfits => omega
  | computation hcomputes hunknown =>
    obtain rfl := hsame hcomputes
    cases h with
    | compute hcomp hdest hjump => exact hunknown (Instruction.mem_of_lookup hcomp)
  | destination hcomputes _ hunknown =>
    obtain rfl := hsame hcomputes
    cases h with
    | compute hcomp hdest hjump => exact hunknown (Instruction.mem_of_lookup hdest)
  | condition hcomputes _ _ hunknown =>
    obtain rfl := hsame hcomputes
    cases h with
    | compute hcomp hdest hjump => exact hunknown (Instruction.mem_of_lookup hjump)

/-- An instruction without fault has a word. -/
theorem exists_wordText_of_faultless {statements : List Statement} {line : Line}
    {statement : Statement} (hline : line.Reads statement)
    (hcommand : statement.command.isInstruction = true)
    (h : ∀ error, ¬ WordFault statements line error) :
    ∃ text, WordText statements statement.command text := by
  obtain ⟨number, command⟩ := statement
  cases command with
  | label name => cases hcommand
  | address symbol =>
    have hsmall : value statements symbol ≤ 32767 := by
      by_contra hlarge
      exact h _ (.addressRange hline.2 (by omega))
    exact ⟨_, .load hsmall⟩
  | compute dest comp jump =>
    obtain ⟨compField, destField, jumpField, hcomp, hdest, hjump⟩ :=
      exists_fields_of_faultless hline.2 h
    exact ⟨_, .compute hcomp hdest hjump⟩

/-- A label has no word to be at fault. -/
theorem not_wordFault_of_label {statements : List Statement} {line : Line} {name : String}
    (hline : Command.ofTokens line.tokens = .ok (.label name)) (error : Error) :
    ¬ WordFault statements line error := by
  intro hfault
  cases hfault <;> simp_all

/-! ## Commands that match -/

/-- Commands of two programs, the first of `statements` and the second of `others`: two labels, two
    loads of the same value, or twice the same computation. -/
inductive Matches (statements others : List Statement) : Command → Command → Prop where
  | label (name other : String) : Matches statements others (.label name) (.label other)
  | load {symbol other : String} (sameValue : value others other = value statements symbol)
      (sameText : valueText others other = valueText statements symbol) :
      Matches statements others (.address symbol) (.address other)
  | compute (dest : Option String) (comp : String) (jump : Option String) :
      Matches statements others (.compute dest comp jump) (.compute dest comp jump)

variable {statements others : List Statement} {command other : Command}

/-- A command matches itself if its symbol has the same value in both programs, as a number always
    has. -/
theorem matches_self (h : ∀ symbol, command = .address symbol → Text.isDecimal symbol = false →
    value others symbol = value statements symbol) : Matches statements others command command := by
  cases command with
  | label name => exact .label name name
  | address symbol =>
    have hvalue : value others symbol = value statements symbol := by
      cases hdecimal : Text.isDecimal symbol with
      | true => exact value_eq_of_isDecimal statements others hdecimal
      | false => exact h symbol rfl hdecimal
    exact .load hvalue (by rw [valueText, valueText, hvalue])
  | compute dest comp jump => exact .compute dest comp jump

theorem Matches.symm (h : Matches statements others command other) :
    Matches others statements other command := by
  cases h with
  | label name other => exact .label other name
  | load sameValue sameText => exact .load sameValue.symm sameText.symm
  | compute dest comp jump => exact .compute dest comp jump

/-- A command that matches one with a word has the same word. -/
theorem Matches.wordText (h : Matches statements others command other) {text : String}
    (htext : WordText statements command text) : WordText others other text := by
  cases h with
  | label => cases htext
  | load sameValue =>
    cases htext with
    | load hfits =>
      rw [← sameValue] at hfits ⊢
      exact .load hfits
  | compute =>
    cases htext with
    | compute hcomp hdest hjump => exact .compute hcomp hdest hjump

/-- A command that matches one at fault is at fault too, on its own line. -/
theorem Matches.wordFault (h : Matches statements others command other) {line place : Line}
    {renumber : Nat → Nat} (hplace : place.number = renumber line.number)
    (hline : Command.ofTokens line.tokens = .ok command)
    (hother : Command.ofTokens place.tokens = .ok other) {error : Error}
    (hfault : WordFault statements line error) :
    WordFault others place (error.renumber renumber) := by
  have hsame {found : Command} (hfound : Command.ofTokens line.tokens = .ok found) :
      command = found := by
    rw [hline] at hfound
    exact Except.ok.inj hfound
  cases hfault with
  | addressRange hloads hlarge =>
    obtain rfl := hsame hloads
    cases h with
    | load sameValue sameText =>
      rw [Error.renumber, ← hplace, ← sameText]
      exact .addressRange hother (by omega)
  | computation hcomputes hunknown =>
    obtain rfl := hsame hcomputes
    cases h
    rw [Error.renumber, ← hplace]
    exact .computation hother hunknown
  | destination hcomputes hknown hunknown =>
    obtain rfl := hsame hcomputes
    cases h
    rw [Error.renumber, ← hplace]
    exact .destination hother hknown hunknown
  | condition hcomputes hknown hstored hunknown =>
    obtain rfl := hsame hcomputes
    cases h
    rw [Error.renumber, ← hplace]
    exact .condition hother hknown hstored hunknown

/-! ## Labels in reach -/

/-- No label stands behind more instructions than there are addresses. -/
def LabelsInReach (statements : List Statement) : Prop :=
  ∀ earlier statement later name, statements = earlier ++ statement :: later →
    statement.command = .label name → (instructions earlier).length ≤ 65535

theorem LabelsInReach.of_append {more : List Statement}
    (h : LabelsInReach (statements ++ more)) : LabelsInReach statements := by
  intro earlier statement later name hstatements hcommand
  exact h earlier statement (later ++ more) name (by rw [hstatements]; simp) hcommand

end Statement

open Statement (Matches WordText LabelsInReach value)

variable {lines : List Line} {statements : List Statement}

/-- Lines that are read have no fault for the labels exactly if the labels are in reach. -/
theorem faultless_labelFault_iff (hreads : List.Forall₂ Line.Reads lines statements) :
    Faultless LabelFault lines ↔ LabelsInReach statements := by
  constructor
  · intro h earlier statement later name hstatements hcommand
    obtain ⟨before, line, after, hlines, hbefore, hline, -⟩ :=
      exists_split_of_forall₂ (hstatements ▸ hreads.flip)
    by_contra hlate
    have hcount := Line.instructionCount_of_reads hbefore.flip
    exact h before line after hlines _ (.outOfReach (hcommand ▸ hline.2) (by omega))
  · intro h before line after hlines error hfault
    obtain ⟨earlier, statement, later, hstatements, hearlier, hline, -⟩ :=
      exists_split_of_forall₂ (hlines ▸ hreads)
    cases hfault with
    | malformed hrefused =>
      rw [hline.2] at hrefused
      cases hrefused
    | outOfReach hdeclares hlate =>
      rw [Line.instructionCount_of_reads hearlier] at hlate
      have hreach := h earlier statement later _ hstatements (hline.command_eq hdeclares)
      omega

/-- Lines that are read have no fault for the words exactly if each instruction has a word. -/
theorem faultless_wordFault_iff {program : List Statement}
    (hreads : List.Forall₂ Line.Reads lines statements) :
    Faultless (fun _ line error => WordFault program line error) lines ↔
      ∀ statement ∈ Statement.instructions statements,
        ∃ text, WordText program statement.command text := by
  constructor
  · intro h statement hmem
    obtain ⟨hmem, hcommand⟩ := List.mem_filter.mp hmem
    obtain ⟨earlier, later, hstatements⟩ := List.append_of_mem hmem
    obtain ⟨before, line, after, hlines, -, hline, -⟩ :=
      exists_split_of_forall₂ (hstatements ▸ hreads.flip)
    exact Statement.exists_wordText_of_faultless hline hcommand (h before line after hlines)
  · intro h before line after hlines error
    obtain ⟨earlier, statement, later, hstatements, -, hline, -⟩ :=
      exists_split_of_forall₂ (hlines ▸ hreads)
    cases hcommand : statement.command with
    | label name => exact Statement.not_wordFault_of_label (hcommand ▸ hline.2) error
    | _ =>
      obtain ⟨text, htext⟩ := h statement
        (List.mem_filter.mpr ⟨by rw [hstatements]; simp, by rw [hcommand]; rfl⟩)
      exact htext.not_wordFault hline.2 error

/-- A source is accepted exactly if its labels are in reach and its instructions have words. -/
theorem Program.acceptance_iff (hreads : List.Forall₂ Line.Reads lines statements) :
    Acceptance lines statements ↔ LabelsInReach statements ∧
      ∀ statement ∈ Statement.instructions statements,
        ∃ text, WordText statements statement.command text := by
  rw [← faultless_labelFault_iff hreads, ← faultless_wordFault_iff hreads]
  constructor
  · intro h
    exact ⟨h.collected, h.emitted⟩
  · rintro ⟨hcollected, hemitted⟩
    exact ⟨hreads, hcollected, hemitted⟩

/-! ## Lines that match -/

/-- A line of one program and a line of another whose commands match; `place` gives the number of
    the second line. -/
structure Line.Matches (statements others : List Statement) (place : Nat → Nat)
    (line other : Line) : Prop where
  number : other.number = place line.number
  commands : ∃ command copy, Command.ofTokens line.tokens = .ok command ∧
    Command.ofTokens other.tokens = .ok copy ∧ Statement.Matches statements others command copy

namespace Line.Matches

variable {others : List Statement} {place : Nat → Nat} {line other : Line} {copies : List Line}

theorem wordFault (h : line.Matches statements others place other) {error : Error}
    (hfault : WordFault statements line error) :
    WordFault others other (error.renumber place) := by
  obtain ⟨command, copy, hline, hother, hmatch⟩ := h.commands
  exact hmatch.wordFault h.number hline hother hfault

theorem exists_wordFault (h : line.Matches statements others place other) {error : Error}
    (hfault : WordFault others other error) : ∃ error, WordFault statements line error := by
  obtain ⟨command, copy, hline, hother, hmatch⟩ := h.commands
  have hsymm : WordFault statements line (error.renumber fun _ => line.number) :=
    hmatch.symm.wordFault rfl hother hline hfault
  exact ⟨_, hsymm⟩

theorem instructionCount (h : List.Forall₂ (Line.Matches statements others place) lines copies) :
    Line.instructionCount copies = Line.instructionCount lines := by
  induction h with
  | nil => rfl
  | cons hline _ ih =>
    obtain ⟨command, copy, hline, hother, hmatch⟩ := hline.commands
    have hsame : copy.isInstruction = command.isInstruction := by
      cases hmatch <;> rfl
    simp only [Line.instructionCount, List.countP_cons, Line.holdsInstruction, hline, hother,
      hsame] at ih ⊢
    rw [ih]

theorem labelFault {before after : List Line}
    (hbefore : List.Forall₂ (Line.Matches statements others place) before after)
    (h : line.Matches statements others place other) {error : Error}
    (hfault : LabelFault before line error) :
    LabelFault after other (error.renumber place) := by
  obtain ⟨command, copy, hline, hother, hmatch⟩ := h.commands
  cases hfault with
  | malformed hrefused =>
    rw [hline] at hrefused
    cases hrefused
  | outOfReach hdeclares hlate =>
    rw [hline] at hdeclares
    cases hdeclares
    cases hmatch
    rw [← instructionCount hbefore] at hlate ⊢
    rw [Error.renumber, ← h.number]
    exact .outOfReach hother hlate

theorem exists_labelFault {before after : List Line}
    (hbefore : List.Forall₂ (Line.Matches statements others place) before after)
    (h : line.Matches statements others place other) {error : Error}
    (hfault : LabelFault after other error) : ∃ error, LabelFault before line error := by
  obtain ⟨command, copy, hline, hother, hmatch⟩ := h.commands
  cases hfault with
  | malformed hrefused =>
    rw [hother] at hrefused
    cases hrefused
  | outOfReach hdeclares hlate =>
    rw [hother] at hdeclares
    cases hdeclares
    cases hmatch
    rw [instructionCount hbefore] at hlate
    exact ⟨_, .outOfReach hline hlate⟩

end Line.Matches

namespace Program

variable {others : List Statement} {place : Nat → Nat} {copies : List Line}

/-- A source whose lines match those of an accepted one is accepted. -/
theorem acceptance_of_matches
    (hlines : List.Forall₂ (Line.Matches statements others place) lines copies)
    (hcopies : List.Forall₂ Line.Reads copies others) (h : Acceptance lines statements) :
    Acceptance copies others where
  reads := hcopies
  collected := h.collected.of_forall₂ hlines fun hbefore hline hfault =>
    hline.exists_labelFault hbefore hfault
  emitted := h.emitted.of_forall₂ hlines fun _ hline hfault => hline.exists_wordFault hfault

/-- A source whose lines match those of a rejected one is rejected with the same error, on the
    line at the side. -/
theorem rejection_of_matches
    (hlines : List.Forall₂ (Line.Matches statements others place) lines copies)
    (hreads : List.Forall₂ Line.Reads lines statements)
    (hcopies : List.Forall₂ Line.Reads copies others) {line : Line} {error : Error}
    (h : Rejection lines line error) : ∃ other, Rejection copies other (error.renumber place) := by
  have hlabels {before before' : List Line} {line other : Line} {error : Error}
      (hbefore : List.Forall₂ (Line.Matches statements others place) before before')
      (hline : line.Matches statements others place other)
      (hfault : LabelFault before' other error) : ∃ error, LabelFault before line error :=
    hline.exists_labelFault hbefore hfault
  cases h with
  | labels first =>
    obtain ⟨other, hother⟩ := first.of_forall₂ hlines
      (fun hbefore hline hfault => hline.labelFault hbefore hfault) hlabels
    exact ⟨other, .labels hother⟩
  | words reads collected first =>
    obtain rfl := Statement.eq_of_reads reads hreads
    have hfirst : ∃ other, FirstFault (fun _ line error => WordFault others line error) copies other
        (error.renumber place) :=
      first.of_forall₂ hlines (fun _ hline hfault => hline.wordFault hfault)
        fun _ hline hfault => hline.exists_wordFault hfault
    obtain ⟨other, hother⟩ := hfirst
    exact ⟨other, .words hcopies (collected.of_forall₂ hlines hlabels) hother⟩

end Program

/-! ## Words side by side -/

/-- The digits of a word settle its bits. -/
theorem Word.bits_eq_of_bitText_eq {word other : Word} (h : other.bitText = word.bitText) :
    other.bits = word.bits := by
  rw [← Binary.ofNat_ofDigits_text other.bits (by decide),
    ← Binary.ofNat_ofDigits_text word.bits (by decide)]
  exact congrArg (fun text : String => BitVec.ofNat 16 (Binary.ofDigits text.toList)) h

/-- Words of commands that match have the same bits. -/
theorem Word.BelongsTo.bits_eq {others : List Statement} {entry other : Statement × Nat}
    {word next : Word} (h : word.BelongsTo statements entry) (h' : next.BelongsTo others other)
    (hmatch : Matches statements others entry.1.command other.1.command) :
    next.bits = word.bits :=
  bits_eq_of_bitText_eq (h'.bits.unique (hmatch.wordText h.bits))

/-- The words of two programs stand side by side as their instructions do. -/
theorem Word.forall₂_of_belongsTo {others : List Statement} {S : Statement → Statement → Prop}
    {R : Word → Word → Prop}
    (h : ∀ {statement other index word next}, S statement other →
      word.BelongsTo statements (statement, index) → next.BelongsTo others (other, index) →
      R word next)
    {instructions copies : List Statement} (hinstructions : List.Forall₂ S instructions copies)
    {start : Nat} {words nexts : List Word}
    (hwords : List.Forall₂ (BelongsTo statements) (instructions.zipIdx start) words)
    (hnexts : List.Forall₂ (BelongsTo others) (copies.zipIdx start) nexts) :
    List.Forall₂ R words nexts := by
  induction hinstructions generalizing start words nexts with
  | nil =>
    cases hwords
    cases hnexts
    exact .nil
  | cons hfirst _ ih =>
    rw [List.zipIdx_cons] at hwords hnexts
    cases hwords with
    | cons hword hwords => cases hnexts with
      | cons hnext hnexts => exact .cons (h hfirst hword hnext) (ih hwords hnexts)

/-- Programs with the same words have the same output file. -/
theorem Program.toText_eq_of_bits {program other : Program}
    (h : List.Forall₂ (fun word next => next.bits = word.bits) program.words other.words) :
    other.toText = program.toText := by
  have hbits : other.words.map Word.bits = program.words.map Word.bits := by
    symm
    rw [← List.forall₂_eq_eq_eq, List.forall₂_map_left_iff, List.forall₂_map_right_iff]
    exact h.imp fun _ _ heq => heq.symm
  have htext (words : List Word) : (words.map fun word => word.bitText.push '\n') =
      (words.map Word.bits).map fun bits => (Binary.text bits).push '\n' := by
    rw [List.map_map]
    rfl
  rw [toText, toText, htext, htext, hbits]

end HackAssembler
