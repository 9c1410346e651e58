/-
  HackAssembler.Proofs.Listing

  Listings that are read again. The texts of commands and the names of symbols come from the tokens
  of a source, so they are made of visible characters and are never empty: every cell of a listing
  is a field of its line. The words and the symbols of a program are therefore found again in their
  listings, one on each line, and no other program has the same listings (`listings_faithful`).
-/
import HackAssembler.Proofs.CommandLine.Run
import HackAssembler.Proofs.Listing.Grid
import HackAssembler.Proofs.Program.Delivery
import HackAssembler.Proofs.Program.Placement
import HackAssembler.Proofs.Program.Reprinting
import HackAssembler.Proofs.SymbolTable.History
import HackAssembler.Proofs.SymbolTable.Sorted
import HackAssembler.Proofs.Text.Decimal
import HackAssembler.Proofs.Text.Hexadecimal

namespace HackAssembler

open Text (IsField isVisible isVisible_iff)

/-! ## Visible characters -/

theorem isVisible_of_isDigit {c : Char} (h : c.isDigit = true) : isVisible c = true := by
  rw [isDigit_iff] at h
  rw [isVisible_iff]
  omega

theorem isVisible_of_isHexDigit {c : Char} (h : Text.isHexDigit c = true) :
    isVisible c = true := by
  rw [Text.isHexDigit, Bool.or_eq_true, Bool.and_eq_true, decide_eq_true_iff,
    decide_eq_true_iff] at h
  rcases h with h | ⟨hfirst, hlast⟩
  · exact isVisible_of_isDigit h
  · have hfirst : 65 ≤ c.toNat := hfirst
    have hlast : c.toNat ≤ 70 := hlast
    rw [isVisible_iff]
    omega

/-- The characters of the tokens that may stand in a command are visible. -/
theorem isVisible_of_token {c : Char}
    (h : isIdentifierChar c = true ∨ ∃ op : Operator, c = op.toChar) : isVisible c = true := by
  rcases h with h | ⟨op, rfl⟩
  · rw [isIdentifierChar, Bool.or_eq_true] at h
    rcases h with hstart | hdigit
    · have hranges := isIdentifierStart_toNat hstart
      rw [isVisible_iff]
      omega
    · exact isVisible_of_isDigit hdigit
  · cases op <;> rfl

/-! ## Cells -/

theorem Token.IsLexeme.isField {token : Token} (h : token.IsLexeme)
    (hvalid : token.isInvalid = false) : IsField token.text.toList where
  ne_nil := by
    obtain ⟨c, tail, hlist, -⟩ := h.exists_cons
    rw [hlist]
    exact List.cons_ne_nil c tail
  visible _ hc := isVisible_of_token (h.isIdentifierChar_or_operator hvalid hc)

/-- The text of a command is a field. -/
theorem Command.Written.isField {tokens : List Token} {command : Command}
    (h : Written tokens command) : IsField command.text.toList where
  ne_nil := by
    intro hempty
    obtain ⟨token, tokens, rfl⟩ := List.exists_cons_of_ne_nil h.derives.ne_nil
    have htext := h.flatMap_text.trans hempty
    rw [List.flatMap_cons, List.append_eq_nil_iff] at htext
    have hfield := (h.isLexeme token (by simp)).isField
      (h.derives.isInvalid_eq_false token (by simp))
    exact hfield.ne_nil htext.1
  visible _ hc := isVisible_of_token (h.isIdentifierChar_or_operator hc)

/-- A name that is declared or used on a line is a field. -/
theorem Line.Reads.isField {line : Line} {statement : Statement} (h : line.Reads statement)
    (hlexeme : ∀ token ∈ line.tokens, token.IsLexeme) {name : String}
    (hcommand : statement.command = .label name ∨ statement.command = .address name) :
    IsField name.toList := by
  rcases hcommand with hcommand | hcommand
  · exact (hlexeme _ (Command.identifier_mem_of_label (hcommand ▸ h.2))).isField rfl
  · obtain ⟨v, hmem, hv⟩ := Command.operand_mem_of_address (hcommand ▸ h.2)
    rw [← hv.text_eq]
    exact (hlexeme v hmem).isField hv.isInvalid_eq_false

theorem isField_of_isReserved {name : String} (h : isReserved name = true) :
    IsField name.toList := by
  have hreserved : ∀ entry ∈ reservedSymbols,
      entry.1.toList ≠ [] ∧ entry.1.toList.all isVisible = true := by
    decide
  obtain ⟨entry, hmem, hname⟩ := List.any_eq_true.mp h
  rw [← eq_of_beq hname]
  exact ⟨(hreserved entry hmem).1, List.all_eq_true.mp (hreserved entry hmem).2⟩

theorem isField_toString (value : Nat) : IsField (toString value).toList where
  ne_nil := mt String.toList_eq_nil_iff.mp (Text.toString_ne_empty value)
  visible c hc := isVisible_of_isDigit (Text.isDigit_of_mem_toString c hc)

/-- The digits of a word. -/
theorem Word.toList_bitText (word : Word) :
    word.bitText.toList = Binary.digits 16 word.bits.toNat :=
  Binary.toList_text _ (by decide)

theorem Word.isField_bitText (word : Word) : IsField word.bitText.toList where
  ne_nil := by
    intro hempty
    have hlength := congrArg List.length (word.toList_bitText.symm.trans hempty)
    rw [Binary.length_digits] at hlength
    cases hlength
  visible c hc := by
    rw [word.toList_bitText] at hc
    rcases Binary.digits_eq_zero_or_one _ _ c hc with rfl | rfl <;> rfl

namespace Program

variable {source : String} {program : Program}

/-- The names of a program are fields. -/
theorem isField_of_bound (h : (assemble source).result = .ok program) {name : String}
    (hname : (program.symbols.get? name).isSome = true) : IsField name.toList := by
  obtain ⟨statements, haccept, hmeans⟩ := acceptance_of_assemble h
  have hstatement {statement : Statement} (hmem : statement ∈ statements)
      (hcommand : statement.command = .label name ∨ statement.command = .address name) :
      IsField name.toList := by
    obtain ⟨line, hline, hreads⟩ := exists_of_forall₂_of_mem haccept.reads hmem
    exact hreads.isField (isLexeme_of_mem source line hline) hcommand
  -- A name that is not reserved stands in a command of some line.
  rcases (hmeans.bound name).mp hname with hreserved | hdeclared | hvariable
  · exact isField_of_isReserved hreserved
  · obtain ⟨statement, hmem, hcommand⟩ := Statement.mem_declared.mp hdeclared
    exact hstatement hmem (.inl hcommand)
  · rw [Statement.variableNames_eq, Statement.mem_variablesIn, Statement.mem_used] at hvariable
    obtain ⟨⟨-, statement, hmem, hcommand⟩, -⟩ := hvariable
    exact hstatement hmem (.inr hcommand)

/-- The commands of a program can be written. -/
theorem exists_written_of_mem_words (h : (assemble source).result = .ok program) {word : Word}
    (hword : word ∈ program.words) : ∃ tokens, Command.Written tokens word.command := by
  obtain ⟨statements, haccept, hmeans⟩ := acceptance_of_assemble h
  obtain ⟨line, hline, entry, hreads, hbelongs⟩ :=
    exists_of_forall₂_of_mem (hmeans.forall₂_lines haccept.reads) hword
  rw [hbelongs.command]
  exact hreads.exists_written (isLexeme_of_mem source line (List.mem_of_mem_filter hline))

/-- The words of a program are numbered from 0 on. -/
theorem map_address_words (h : (assemble source).result = .ok program) :
    program.words.map Word.address = List.range program.words.length := by
  obtain ⟨statements, -, hmeans⟩ := acceptance_of_assemble h
  have hsame : List.Forall₂ Eq ((Statement.instructions statements).zipIdx.map Prod.snd)
      (program.words.map Word.address) := by
    rw [List.forall₂_map_left_iff, List.forall₂_map_right_iff]
    exact hmeans.words.imp fun _ _ hbelongs => hbelongs.address.symm
  rw [List.forall₂_eq_eq_eq, List.zipIdx_map_snd] at hsame
  rw [← hsame, List.range_eq_range', ← hmeans.words.length_eq, List.length_zipIdx]

end Program

namespace Listing

open Program (assemble)

variable {source : String} {program other : Program} {word next : Word}
  {entry following : String × Address} {line : List Char}

/-! ## Lines of listings -/

/-- A text is read as a source of one line, without remark. -/
def IsSourceOf (text : List Char) (command : Command) : Prop :=
  ∃ line, Line.ofSource (String.ofList text) = [line] ∧ line.read = ⟨[], .ok (some command)⟩

/-- A line of a listing shows a word. Its fields are the address, the command, an arrow and the
    digits; the command can be read as it stands there, and the digits begin in a given column. -/
structure ShowsWord (column : Nat) (word : Word) (line : List Char) : Prop where
  fields : ∃ address, IsHexadecimal address word.address ∧
    Text.fields line = ['0' :: 'x' :: address ++ [':'], word.command.text.toList, ['=', '>'],
      word.bitText.toList]
  visible : ∀ c ∈ line, c = ' ' ∨ isVisible c = true
  command : IsSourceOf word.command.text.toList word.command
  length : word.bitText.toList.length = 16
  binary : ∀ c ∈ word.bitText.toList, c = '0' ∨ c = '1'
  value : Binary.ofDigits word.bitText.toList = word.bits.toNat
  column : ∃ before, line = before ++ word.bitText.toList ∧ before.length = column

/-- A line of a listing shows a symbol: its fields are the name and the address. -/
structure ShowsSymbol (entry : String × Address) (line : List Char) : Prop where
  fields : Text.fields line = [entry.1.toList, (toString entry.2.toNat).toList]
  visible : ∀ c ∈ line, c = ' ' ∨ isVisible c = true

theorem isSourceOf_of_written {tokens : List Token} {command : Command}
    (h : Command.Written tokens command) : IsSourceOf command.text.toList command := by
  have hline : ∀ c ∈ command.text.toList, (c == '\n') = false := by
    intro c hc
    rw [beq_eq_false_iff_ne]
    rintro rfl
    exact h.newline_not_mem hc
  refine ⟨⟨1, tokens⟩, ?_, h.read⟩
  rw [Line.ofSource, String.toList_ofList, List.splitOnP_eq_singleton hline, List.zipIdx_singleton,
    List.filterMap_cons]
  simp only [h.ofText?, List.filterMap_nil]

theorem toList_addressCell (word : Word) : (s!"0x{hexadecimal word.address}:").toList =
    '0' :: 'x' :: (hexadecimal word.address).toList ++ [':'] := by
  show ("0x" ++ hexadecimal word.address ++ ":").toList = _
  simp

theorem isField_addressCell (word : Word) :
    IsField (s!"0x{hexadecimal word.address}:").toList := by
  rw [toList_addressCell]
  refine ⟨by simp, fun c hc => ?_⟩
  simp only [List.cons_append, List.mem_cons, List.mem_append, List.not_mem_nil, or_false] at hc
  rcases hc with rfl | rfl | hdigit | rfl
  · rfl
  · rfl
  · exact isVisible_of_isHexDigit ((isHexadecimal_hexadecimal _).isHexDigit c hdigit)
  · rfl

/-- The cells of a word are fields. -/
theorem isField_of_mem_wordRow {tokens : List Token} (h : Command.Written tokens word.command) :
    ∀ cell ∈ wordRow word, IsField cell.toList := by
  have harrow : IsField "=>".toList := ⟨by decide, List.all_eq_true.mp (by decide)⟩
  intro cell hcell
  simp only [wordRow, List.mem_cons, List.not_mem_nil, or_false] at hcell
  rcases hcell with rfl | rfl | rfl | rfl
  · exact isField_addressCell word
  · exact h.isField
  · exact harrow
  · exact word.isField_bitText

theorem showsWord_of_showsRow {tokens : List Token} (h : Command.Written tokens word.command)
    {column : Nat} (hline : ShowsRow column (wordRow word) line) : ShowsWord column word line where
  fields := ⟨_, isHexadecimal_hexadecimal word.address, by
    rw [hline.fields, ← toList_addressCell]
    rfl⟩
  visible := hline.visible
  command := isSourceOf_of_written h
  length := by rw [word.toList_bitText, Binary.length_digits]
  binary := by
    rw [word.toList_bitText]
    exact Binary.digits_eq_zero_or_one _ _
  value := by
    rw [word.toList_bitText, Binary.ofDigits_digits, BitVec.ofNat_toNat, BitVec.setWidth_eq]
  column := hline.last word.bitText rfl

/-- The words of a program, by the lines of its listing. -/
theorem exists_lines_ofWords (h : (assemble source).result = .ok program) :
    ∃ column lines, (ofWords program).toList.splitOnP (· == '\n') = lines ++ [[], []] ∧
      List.Forall₂ (ShowsWord column) program.words lines := by
  have hcells : ∀ word ∈ program.words, ∀ cell ∈ wordRow word, IsField cell.toList := by
    intro word hword
    obtain ⟨tokens, hwritten⟩ := Program.exists_written_of_mem_words h hword
    exact isField_of_mem_wordRow hwritten
  obtain ⟨column, lines, hlines, hrows⟩ :=
    exists_lines_renderGrid Nat.one_pos 3 wordRow (fun _ => rfl) hcells
  refine ⟨column, lines, hlines, hrows.imp ?_⟩
  rintro word line ⟨hword, hline⟩
  obtain ⟨tokens, hwritten⟩ := Program.exists_written_of_mem_words h hword
  exact showsWord_of_showsRow hwritten hline

/-- The symbols of a program, by the lines of its listing. -/
theorem exists_lines_ofSymbols (h : (assemble source).result = .ok program) :
    ∃ lines, (ofSymbols program).toList.splitOnP (· == '\n') = lines ++ [[], []] ∧
      List.Forall₂ ShowsSymbol program.symbols.sorted lines := by
  have hcells : ∀ entry ∈ program.symbols.sorted, ∀ cell ∈ symbolRow entry,
      IsField cell.toList := by
    rintro ⟨name, address⟩ hentry
    have hbound : (program.symbols.get? name).isSome = true := by
      rw [SymbolTable.mem_sorted_iff.mp hentry]
      rfl
    rw [symbolRow, List.forall_mem_cons, List.forall_mem_singleton]
    exact ⟨Program.isField_of_bound h hbound, isField_toString _⟩
  obtain ⟨column, lines, hlines, hrows⟩ :=
    exists_lines_renderGrid Nat.two_pos 1 symbolRow (fun _ => rfl) hcells
  exact ⟨lines, hlines, hrows.imp fun _ _ hline => ⟨hline.2.fields, hline.2.visible⟩⟩

/-! ## What is read from a listing -/

theorem ShowsWord.getLast?_fields {column : Nat} (h : ShowsWord column word line) :
    (Text.fields line).getLast? = some word.bitText.toList := by
  obtain ⟨address, -, hfields⟩ := h.fields
  rw [hfields]
  rfl

/-- The last fields of the lines are the lines of the output file. -/
theorem flatMap_getLast?_fields {column : Nat} {lines : List (List Char)}
    (h : List.Forall₂ (ShowsWord column) program.words lines) :
    (lines.flatMap fun line => (Text.fields line).getLast?.getD [] ++ ['\n']) =
      program.toText.toList := by
  rw [Program.toText, String.toList_join, List.flatMap_map]
  generalize program.words = words at h ⊢
  induction h with
  | nil => rfl
  | cons hline _ ih =>
    rw [List.flatMap_cons, List.flatMap_cons, ih, hline.getLast?_fields, String.toList_push]
    rfl

/-- A source of one line is read in one way. -/
theorem IsSourceOf.unique {text : List Char} {command other : Command}
    (h : IsSourceOf text command) (h' : IsSourceOf text other) : command = other := by
  obtain ⟨line, hline, hread⟩ := h
  obtain ⟨line', hline', hread'⟩ := h'
  rw [hline] at hline'
  obtain rfl := List.singleton_inj.mp hline'
  rw [hread] at hread'
  cases hread'
  rfl

/-- A line shows one word, but for the source line that the word comes from. -/
theorem ShowsWord.unique {column column' : Nat} (h : ShowsWord column word line)
    (h' : ShowsWord column' next line) :
    next.address = word.address ∧ next.command = word.command ∧ next.bits = word.bits := by
  obtain ⟨address, haddress, hfields⟩ := h.fields
  obtain ⟨address', haddress', hfields'⟩ := h'.fields
  rw [hfields] at hfields'
  obtain ⟨hdigits, htext, -, hbits, -⟩ : _ ∧ _ ∧ _ ∧ _ ∧ _ := by
    simpa only [List.cons.injEq] using hfields'
  -- Each field is read by itself: the digits as a number, the command as a source, the bits.
  refine ⟨?_, ?_, ?_⟩
  · have hsame : address = address' := by simpa using hdigits
    rw [← haddress.value, ← haddress'.value, hsame]
  · exact (htext ▸ h'.command).unique h.command
  · rw [← BitVec.toNat_inj, ← h.value, ← h'.value, hbits]

/-- A line shows one symbol. -/
theorem ShowsSymbol.unique (h : ShowsSymbol entry line) (h' : ShowsSymbol following line) :
    following = entry := by
  have hfields := h.fields.symm.trans h'.fields
  obtain ⟨hname, haddress, -⟩ : _ ∧ _ ∧ _ := by
    simpa only [List.cons.injEq] using hfields
  have hvalue := congrArg Text.decimalValue haddress
  rw [Text.decimalValue_toString, Text.decimalValue_toString] at hvalue
  exact Prod.ext (String.toList_injective hname).symm (BitVec.eq_of_toNat_eq hvalue).symm

/-! ## Listings -/

/-- A text lists the words of a program: they are numbered from 0 on, and there is a line for each
    of them, with the digits in the same column. The last fields of the lines make up the output
    file. -/
structure ListsWords (program : Program) (listing : String) : Prop where
  numbered : program.words.map Word.address = List.range program.words.length
  lines : ∃ column lines, listing.toList.splitOnP (· == '\n') = lines ++ [[], []] ∧
    List.Forall₂ (ShowsWord column) program.words lines ∧
    (lines.flatMap fun line => (Text.fields line).getLast?.getD [] ++ ['\n']) =
      program.toText.toList

/-- A text lists the symbols of a program: there is a line for each entry of its table, in order. -/
structure ListsSymbols (program : Program) (listing : String) : Prop where
  size : program.symbols.sorted.length = program.symbols.size
  lines : ∃ lines, listing.toList.splitOnP (· == '\n') = lines ++ [[], []] ∧
    List.Forall₂ ShowsSymbol program.symbols.sorted lines

theorem listsWords_ofWords (h : (assemble source).result = .ok program) :
    ListsWords program (ofWords program) := by
  obtain ⟨column, lines, hlines, hwords⟩ := exists_lines_ofWords h
  exact ⟨Program.map_address_words h, column, lines, hlines, hwords, flatMap_getLast?_fields hwords⟩

theorem listsSymbols_ofSymbols (h : (assemble source).result = .ok program) :
    ListsSymbols program (ofSymbols program) :=
  ⟨SymbolTable.length_sorted _, exists_lines_ofSymbols h⟩

/-- Programs with the same listing have the same words, but for the source lines. -/
theorem ListsWords.unique {listing : String} (h : ListsWords program listing)
    (h' : ListsWords other listing) :
    List.Forall₂ (fun word next => next.address = word.address ∧ next.command = word.command ∧
      next.bits = word.bits) program.words other.words := by
  obtain ⟨column, lines, hlines, hwords, -⟩ := h.lines
  obtain ⟨column', lines', hlines', hothers, -⟩ := h'.lines
  rw [hlines] at hlines'
  obtain rfl := List.append_cancel_right hlines'
  -- The words of both programs stand at the side of the same lines.
  refine (forall₂_comp hwords hothers.flip).imp ?_
  rintro word next ⟨line, hword, hnext⟩
  exact hword.unique hnext

theorem ListsSymbols.unique {listing : String} (h : ListsSymbols program listing)
    (h' : ListsSymbols other listing) : program.symbols = other.symbols := by
  obtain ⟨lines, hlines, hentries⟩ := h.lines
  obtain ⟨lines', hlines', hothers⟩ := h'.lines
  rw [hlines] at hlines'
  obtain rfl := List.append_cancel_right hlines'
  apply SymbolTable.eq_of_sorted_eq
  rw [← List.forall₂_eq_eq_eq]
  refine (forall₂_comp hentries hothers.flip).imp ?_
  rintro entry following ⟨line, hentry, hfollowing⟩
  exact (hentry.unique hfollowing).symm

/-- What is evaluated of the program of a source. -/
theorem exists_program_of_map {α : Type} {f : Program → α} {a : α}
    (h : (assemble source).result.toOption.map f = some a) :
    ∃ program, (assemble source).result = .ok program ∧ f program = a := by
  cases hresult : (assemble source).result with
  | error error =>
    rw [hresult] at h
    cases h
  | ok program =>
    rw [hresult] at h
    exact ⟨program, rfl, Option.some.inj h⟩

/-! ## Calls that list a program -/

section Calls

variable {fs : FileSystem (StateM FileTree)} {before : FileTree} {arguments : List String}

/-- A call that succeeds has written a program and prints the listings of it that are asked for. -/
theorem exists_program_of_run (hfs : fs.IsFaithful) {options : CommandLine.Options}
    (h : CommandLine.Request.ofArguments arguments = .assemble options)
    (hcode : ((@CommandLine.run (StateM FileTree) _ fs arguments).run before).1.exitCode = 0) :
    ∃ source program, Program.ReadsText fs options.input before source ∧
      (assemble source).result = .ok program ∧
      ((@CommandLine.run (StateM FileTree) _ fs arguments).run before).1.output =
        CommandLine.listings options program ∧
      ((@CommandLine.run (StateM FileTree) _ fs arguments).run before).2.at?
        (options.output.getD (Program.outputPath options.input)) =
          some (.file program.toText.toUTF8) := by
  obtain ⟨⟨report, after⟩, hrun⟩ : ∃ outcome,
      (@Program.assembleFile (StateM FileTree) _ fs options.input options.output).run before =
        outcome := ⟨_, rfl⟩
  have hends := Program.ends_of_run_assembleFile hfs hrun
  rw [CommandLine.run_of_assemble h, hrun] at hcode ⊢
  cases hresult : report.result with
  | error error =>
    rw [(CommandLine.outcomeOf_of_error options hresult).1] at hcode
    cases hcode
  | ok written =>
    rw [hresult] at hends
    -- The only end with a program is the one where the output took its place.
    cases hends with
    | written reads assembles writes moves =>
      obtain ⟨target, temporary, hsites, hafter⟩ := Program.exists_sites writes moves
      refine ⟨_, _, reads, assembles, ?_, ?_⟩
      · rw [CommandLine.outcomeOf, hresult]
      · rw [hafter]
        exact (hsites.delivers _).atOutput

end Calls

/-! ## Main result -/

/-- The listings of a program show what it is. There is a line for each word, and its fields are the
    address, the command, which can be read as it stands there, an arrow and the digits; the digits
    begin in the same column in all lines and make up the output file. There is a line for each
    symbol, in order, and its fields are the name and the address. Programs with the same listings
    have the same words and symbols. A call that succeeds prints the listings that it is asked for,
    of the program that it has written. -/
theorem listings_faithful :
    (∀ source program, (assemble source).result = .ok program →
      ListsWords program (ofWords program) ∧ ListsSymbols program (ofSymbols program)) ∧
    (∀ source program source' other, (assemble source).result = .ok program →
      (assemble source').result = .ok other →
        (ofWords program = ofWords other →
          List.Forall₂ (fun word next => next.address = word.address ∧
            next.command = word.command ∧ next.bits = word.bits) program.words other.words) ∧
        (ofSymbols program = ofSymbols other → program.symbols = other.symbols)) ∧
    ∀ (fs : FileSystem (StateM FileTree)), fs.IsFaithful → ∀ before arguments options,
      CommandLine.Request.ofArguments arguments = .assemble options →
      let call := (@CommandLine.run (StateM FileTree) _ fs arguments).run before
      call.1.exitCode = 0 →
        ∃ source program, Program.ReadsText fs options.input before source ∧
          (assemble source).result = .ok program ∧
          call.1.output = (if options.showWords then ofWords program else "") ++
            (if options.showSymbols then ofSymbols program else "") ∧
          call.2.at? (options.output.getD (Program.outputPath options.input)) =
            some (.file program.toText.toUTF8) := by
  refine ⟨fun _ _ h => ⟨listsWords_ofWords h, listsSymbols_ofSymbols h⟩, ?_, ?_⟩
  · intro source program source' other h h'
    refine ⟨fun hsame => ?_, fun hsame => ?_⟩
    · exact (listsWords_ofWords h).unique (hsame ▸ listsWords_ofWords h')
    · exact (listsSymbols_ofSymbols h).unique (hsame ▸ listsSymbols_ofSymbols h')
  · intro fs hfs before arguments options hrequest call hcode
    exact exists_program_of_run hfs hrequest hcode

/-- Both listings of a program with a variable and an odd label, and the file that was written; and
    two sources with the same listing, whose words come from different lines. -/
theorem listings_faithful_call :
    let before := FileTree.ofEntries []
      [(⟨"Odd.asm"⟩, .file "@sum\n( $:1. )\nAMD = M+1 ;JGT".toUTF8)]
    let call := (CommandLine.run (m := StateM FileTree) ["-ds", "Odd.asm"]).run before
    (∃ program, ListsWords program (ofWords program) ∧ ListsSymbols program (ofSymbols program) ∧
      call.1.output = ofWords program ++ ofSymbols program ∧
      call.2.at? ⟨"Odd.hack"⟩ = some (.file program.toText.toUTF8)) ∧
    ∃ program other, (assemble "@7").result = .ok program ∧
      (assemble "// seven\n @7").result = .ok other ∧
      List.Forall₂ (fun word next => next.address = word.address ∧ next.command = word.command ∧
        next.bits = word.bits) program.words other.words := by
  intro before call
  obtain ⟨hlists, hsame, hcalls⟩ := listings_faithful
  constructor
  · obtain ⟨source, program, -, hassemble, houtput, hfile⟩ :=
      hcalls inferInstance FileTree.isFaithful before ["-ds", "Odd.asm"]
        ⟨⟨"Odd.asm"⟩, none, .warn, true, true⟩ (by decide) (by decide +kernel)
    obtain ⟨hwords, hsymbols⟩ := hlists source program hassemble
    exact ⟨program, hwords, hsymbols, houtput, hfile⟩
  · have hrows : (assemble "@7").result.toOption.map (fun program => program.words.map wordRow) =
        some [["0x0000:", "@7", "=>", "0000000000000111"]] := by
      decide +kernel
    have hrows' : (assemble "// seven\n @7").result.toOption.map
        (fun program => program.words.map wordRow) =
          some [["0x0000:", "@7", "=>", "0000000000000111"]] := by
      decide +kernel
    obtain ⟨program, hassemble, hrow⟩ := exists_program_of_map hrows
    obtain ⟨other, hassemble', hrow'⟩ := exists_program_of_map hrows'
    have hlisting : ofWords program = ofWords other := by
      rw [ofWords, ofWords, hrow, hrow']
    exact ⟨program, other, hassemble, hassemble',
      (hsame _ _ _ _ hassemble hassemble').1 hlisting⟩

end Listing

end HackAssembler
