/-
  HackAssembler.Proofs.Program.Disassembly

  From words back to a source. Commands that can stand in a source are read again from the lines
  they are written on, one a line (`Program.reads_sourceOf`). So a list of words of instructions,
  written as the commands that they encode, is assembled to these words, and to nothing else.
-/
import HackAssembler.Proofs.Instruction.Decoding
import HackAssembler.Proofs.Program.Reprinting
import HackAssembler.Proofs.Program.Words

namespace HackAssembler

open Instruction (compTable destTable jumpTable IsWordText)

/-! ## Commands without symbols -/

/-- Tells whether a command needs no table of symbols. -/
def Command.isSymbolFree : Command → Bool
  | address symbol => Text.isDecimal symbol
  | compute .. => true
  | label _ => false

theorem Command.isInstruction_of_isSymbolFree {command : Command}
    (h : command.isSymbolFree = true) : command.isInstruction = true := by
  cases command with
  | label name => cases h
  | address symbol => rfl
  | compute dest comp jump => rfl

namespace Statement

variable {statements : List Statement}
  (hfree : ∀ statement ∈ statements, statement.command.isSymbolFree = true)

include hfree

theorem instructions_of_isSymbolFree : instructions statements = statements :=
  List.filter_eq_self.mpr fun statement hmem =>
    Command.isInstruction_of_isSymbolFree (hfree statement hmem)

theorem fixedAddress?_of_isSymbolFree (name : String) :
    fixedAddress? statements name = reservedSymbols.lookup name := by
  have hnone : declaration? name statements = none := by
    rw [declaration?_eq_none_iff, mem_declared]
    rintro ⟨statement, hmem, hcommand⟩
    have hsymbol := hfree statement hmem
    rw [hcommand] at hsymbol
    cases hsymbol
  rw [fixedAddress?, hnone]

theorem variableAddress?_of_isSymbolFree (name : String) :
    variableAddress? statements statements name = none := by
  have hnot : name ∉ variablesIn statements statements := by
    intro hmem
    obtain ⟨hdecimal, statement, hstatement, hcommand⟩ := mem_used.mp (mem_variablesIn.mp hmem).1
    have hsymbol := hfree statement hstatement
    rw [hcommand, Command.isSymbolFree, hdecimal] at hsymbol
    cases hsymbol
  rw [variableAddress?, if_neg hnot]

end Statement

/-! ## Texts of words -/

theorem Statement.WordText.isWordText {statements : List Statement} {command : Command}
    {text : String} (h : WordText statements command text) : IsWordText text := by
  cases h with
  | load =>
    rw [← Instruction.text_load]
    exact Instruction.isWordText_append _
  | compute hcomp =>
    rw [← Instruction.text_computeWord]
    exact Instruction.isWordText_computeWord (Instruction.mem_snd_of_lookup hcomp) _ _

/-- The command that the digits of a word encode. -/
def Instruction.ofText? (text : String) : Option Command :=
  decode? (BitVec.ofNat 16 (Binary.ofDigits text.toList))

/-- A command can stand in a source, needs no symbols, and has a given word in every program. -/
structure Command.IsFormOf (command : Command) (text : String) : Prop where
  written : ∃ tokens, Command.Written tokens command
  isSymbolFree : command.isSymbolFree = true
  wordText : ∀ statements, Statement.WordText statements command text

theorem Instruction.isFormOf_address (value : BitVec 15) :
    (Command.address (toString value.toNat)).IsFormOf (Binary.text (0b0#1 ++ value)) where
  written := exists_written_address _
  isSymbolFree := Text.isDecimal_toString _
  wordText statements := by
    have hvalue : Statement.value statements (toString value.toNat) = value.toNat := by
      rw [Statement.value_of_isDecimal _ (Text.isDecimal_toString _), Text.decimalValue_toString]
    have hlt := value.isLt
    have hfits : Statement.value statements (toString value.toNat) ≤ 32767 := by
      rw [hvalue]
      omega
    have hword := Statement.wordText_load hfits
    rw [hvalue, BitVec.ofNat_toNat, BitVec.setWidth_eq] at hword
    exact hword

theorem Instruction.isFormOf_compute {compName destName jumpName : String} {comp : BitVec 7}
    {dest jump : BitVec 3} (hcomp : compTable.lookup compName = some comp)
    (hdest : destTable.lookup destName = some dest)
    (hjump : jumpTable.lookup jumpName = some jump) :
    (Command.compute (partOf destName) compName (partOf jumpName)).IsFormOf
      (Binary.text (computeWord comp dest jump)) where
  written := exists_written_compute (mem_of_lookup hdest) (mem_of_lookup hcomp)
    (mem_of_lookup hjump)
  isSymbolFree := rfl
  wordText statements := by
    apply Statement.wordText_compute hcomp
    · rw [getD_partOf]
      exact hdest
    · rw [getD_partOf]
      exact hjump

/-- A text of a word encodes a command that has just that word. -/
theorem Instruction.IsWordText.exists_command {text : String} (h : IsWordText text) :
    ∃ command, ofText? text = some command ∧ command.IsFormOf text := by
  rcases h.exists_word with ⟨value, rfl⟩ | ⟨comp, hcomp, dest, jump, rfl⟩
  · refine ⟨.address (toString value.toNat), ?_, isFormOf_address value⟩
    rw [ofText?, Binary.ofNat_ofDigits_text _ (by decide), decode?_append]
  · obtain ⟨compName, hcompName, hcompField⟩ := exists_mnemonic? compTable_nodup.1 hcomp
    -- Every field of a destination or of a condition is in its table.
    obtain ⟨destName, hdestName, hdestField⟩ := exists_mnemonic? destTable_nodup.1
      (mem_destTable dest)
    obtain ⟨jumpName, hjumpName, hjumpField⟩ := exists_mnemonic? jumpTable_nodup.1
      (mem_jumpTable jump)
    refine ⟨.compute (partOf destName) compName (partOf jumpName), ?_,
      isFormOf_compute hcompField hdestField hjumpField⟩
    rw [ofText?, Binary.ofNat_ofDigits_text _ (by decide),
      decode?_computeWord hcompName hdestName hjumpName]

namespace Program

/-! ## Output files -/

theorem isWordText_of_means {statements : List Statement} {program : Program}
    (h : Means statements program) : ∀ word ∈ program.words, IsWordText word.bitText := by
  intro word hword
  obtain ⟨entry, -, hentry⟩ := exists_of_forall₂_of_mem h.words hword
  exact hentry.bits.isWordText

/-- A file of words has 17 characters for each of them. -/
theorem length_toText {program : Program}
    (h : ∀ word ∈ program.words, IsWordText word.bitText) :
    program.toText.length = 17 * program.words.length := by
  have hlength : ∀ word ∈ program.words, (word.bitText.push '\n').length = 17 := by
    intro word hword
    rw [String.length_push, (h word hword).length]
  rw [toText, String.length_join, List.map_map]
  generalize program.words = words at hlength
  induction words with
  | nil => rfl
  | cons word words ih =>
    rw [List.forall_mem_cons] at hlength
    rw [List.map_cons, List.sum_cons, Function.comp_apply, hlength.1, ih hlength.2,
      List.length_cons]
    omega

/-! ## Sources of words -/

/-- The source of some words, with the command that each encodes on a line of its own. -/
def disassemble (texts : List String) : String :=
  sourceOf (texts.filterMap Instruction.ofText?)

/-- Every text has its command, and no command is left out. -/
theorem forall₂_filterMap_ofText? {texts : List String} (h : ∀ text ∈ texts, IsWordText text) :
    List.Forall₂ (fun text command => Command.IsFormOf command text) texts
      (texts.filterMap Instruction.ofText?) := by
  induction texts with
  | nil => exact .nil
  | cons text texts ih =>
    rw [List.forall_mem_cons] at h
    obtain ⟨command, hcommand, hform⟩ := h.1.exists_command
    rw [List.filterMap_cons_some hcommand]
    exact .cons hform (ih h.2)

/-- Lines of commands without symbols that have words are accepted. -/
theorem acceptance_of_isFormOf {lines : List Line} {statements : List Statement}
    (hreads : List.Forall₂ Line.Reads lines statements)
    (hform : ∀ statement ∈ statements, ∃ text, statement.command.IsFormOf text) :
    Acceptance lines statements := by
  refine (acceptance_iff hreads).mpr ⟨?_, ?_⟩
  · intro earlier statement later name hstatements hcommand
    obtain ⟨text, htext⟩ := hform statement (by rw [hstatements]; simp)
    -- A label would be a symbol.
    have hsymbol := htext.isSymbolFree
    rw [hcommand] at hsymbol
    cases hsymbol
  · intro statement hmem
    obtain ⟨text, htext⟩ := hform statement (List.mem_of_mem_filter hmem)
    exact ⟨text, htext.wordText statements⟩

/-- The words of commands without symbols are the ones that the commands have. -/
theorem map_bitText_of_forall₂ {statements : List Statement} {texts : List String}
    {commands : List Command}
    (htexts : List.Forall₂ (fun text command => Statement.WordText statements command text)
      texts commands)
    {words : List Word}
    (hwords : List.Forall₂ (fun command word => Statement.WordText statements command word.bitText)
      commands words) :
    words.map Word.bitText = texts := by
  induction htexts generalizing words with
  | nil =>
    cases hwords
    rfl
  | cons htext _ ih =>
    cases hwords with
    | cons hword hrest => rw [List.map_cons, ih hrest, hword.unique htext]

/-- The words of a program stand beside the commands of its instructions. -/
theorem forall₂_command_of_belongsTo {statements instructions : List Statement} {words : List Word}
    (h : List.Forall₂ (Word.BelongsTo statements) instructions.zipIdx words) :
    List.Forall₂ (fun command word => Statement.WordText statements command word.bitText)
      (instructions.map Statement.command) words := by
  have hmap : instructions.map Statement.command =
      instructions.zipIdx.map (fun entry => entry.1.command) := by
    conv_lhs => rw [← List.zipIdx_map_fst 0 instructions, List.map_map]
    rfl
  rw [hmap, List.forall₂_map_left_iff]
  exact h.imp fun _ _ hword => hword.bits

/-- Assembling the source of some words gives these words, and no symbol but the reserved ones. -/
theorem exists_program_of_disassemble {texts : List String} (h : ∀ text ∈ texts, IsWordText text) :
    ∃ program, (assemble (disassemble texts)).result = .ok program ∧
      program.words.map Word.bitText = texts ∧ program.symbols = .reserved := by
  have hcommands := forall₂_filterMap_ofText? h
  generalize hlist : texts.filterMap Instruction.ofText? = commands at hcommands
  have hsource : disassemble texts = sourceOf commands := by rw [disassemble, hlist]
  have hreads : List.Forall₂ Line.Reads (Line.ofSource (disassemble texts))
      (statementsOf commands) := by
    rw [hsource]
    refine reads_sourceOf fun command hcommand => ?_
    obtain ⟨text, -, hform⟩ := exists_of_forall₂_of_mem hcommands hcommand
    exact hform.written
  have hform : ∀ statement ∈ statementsOf commands, ∃ text, statement.command.IsFormOf text := by
    intro statement hstatement
    have hcommand : statement.command ∈ commands := by
      rw [← map_command_statementsOf commands]
      exact List.mem_map_of_mem hstatement
    obtain ⟨text, -, hform⟩ := exists_of_forall₂_of_mem hcommands hcommand
    exact ⟨text, hform⟩
  have hfree : ∀ statement ∈ statementsOf commands, statement.command.isSymbolFree = true := by
    intro statement hstatement
    obtain ⟨text, htext⟩ := hform statement hstatement
    exact htext.isSymbolFree
  obtain ⟨labels, emission, -, hfollows, hresult⟩ := exists_follows_of_acceptance
    (tokens_ne_nil_of_mem _) (isLexeme_of_mem _) (acceptance_of_isFormOf hreads hform)
  refine ⟨_, hresult, ?_, ?_⟩
  · have hwords := forall₂_command_of_belongsTo hfollows.words
    rw [Statement.instructions_of_isSymbolFree hfree, map_command_statementsOf] at hwords
    exact map_bitText_of_forall₂ (hcommands.imp fun _ _ hform => hform.wordText _) hwords
  · -- Nothing is declared and no variable is used.
    apply SymbolTable.ext
    intro name
    rw [SymbolTable.get?_reserved]
    show emission.symbols.get? name = _
    rw [hfollows.symbols, Statement.fixedAddress?_of_isSymbolFree hfree,
      Statement.variableAddress?_of_isSymbolFree hfree, Option.or_none]

/-- The output files of the assembler are the lists of words of instructions: each file is one, and
    each such list is the file of a source without symbols. -/
theorem assemble_image :
    (∀ source program, (assemble source).result = .ok program →
      (∀ word ∈ program.words, IsWordText word.bitText) ∧
      program.toText = String.join (program.words.map fun word => word.bitText.push '\n') ∧
      program.toText.length = 17 * program.words.length) ∧
    ∀ texts, (∀ text ∈ texts, IsWordText text) →
      (texts.filterMap Instruction.ofText?).length = texts.length ∧
      ∃ program, (assemble (disassemble texts)).result = .ok program ∧
        program.toText = String.join (texts.map fun text => text.push '\n') ∧
        program.symbols = .reserved := by
  constructor
  · intro source program hresult
    obtain ⟨statements, -, hmeans⟩ := acceptance_of_assemble hresult
    have hwords := isWordText_of_means hmeans
    exact ⟨hwords, rfl, length_toText hwords⟩
  · intro texts htexts
    obtain ⟨program, hresult, hwords, hsymbols⟩ := exists_program_of_disassemble htexts
    refine ⟨(forall₂_filterMap_ofText? htexts).length_eq.symm, program, hresult, ?_, hsymbols⟩
    rw [toText, ← hwords, List.map_map]
    rfl

/-- A word that loads 2 and a word that copies `A` to `D`. -/
theorem assemble_image_load_copy :
    ∃ program,
      (assemble (disassemble ["0000000000000010", "1110110000010000"])).result = .ok program ∧
        program.toText = String.join (["0000000000000010", "1110110000010000"].map fun text =>
          text.push '\n') ∧
        program.symbols = .reserved := by
  have hload : IsWordText "0000000000000010" := by
    have hword := Instruction.isWordText_append 2#15
    rwa [show Binary.text (0b0#1 ++ 2#15) = "0000000000000010" by decide +kernel] at hword
  have hcopy : IsWordText "1110110000010000" := by
    have hword : IsWordText (Binary.text (Instruction.computeWord 0b0110000 0b010 0b000)) :=
      Instruction.isWordText_computeWord (by decide) _ _
    rwa [show Binary.text (Instruction.computeWord 0b0110000 0b010 0b000) = "1110110000010000" by
      decide +kernel] at hword
  exact (assemble_image.2 ["0000000000000010", "1110110000010000"] (by simp [hload, hcopy])).2

end Program

end HackAssembler
