/-
  HackAssembler.Proofs.Program.Emission

  What emitting words comes to, once the labels are known. The invariant `Emission.Follows` ties
  the state to the statements behind: the table holds the fixed addresses and the variables met so
  far, the next variable is the one after them, and each instruction behind has its word. A line
  keeps it or is at fault (`Emission.tracks`).
-/
import HackAssembler.Program.Emission
import HackAssembler.Proofs.Instruction.Encoding
import HackAssembler.Proofs.Program.Labels

namespace HackAssembler

open Instruction (compTable destTable jumpTable)

/-! ## Words of a program -/

/-- The digits of the word of a command, for a program whose symbols have their values. -/
inductive Statement.WordText (statements : List Statement) : Command → String → Prop where
  /-- A zero, and the value in 15 digits. -/
  | load {symbol : String} (fits : value statements symbol ≤ 32767) :
      WordText statements (.address symbol)
        ("0" ++ Binary.text (BitVec.ofNat 15 (value statements symbol)))
  /-- Three ones, and the codes of the computation, the destination and the condition. -/
  | compute {dest jump : Option String} {comp : String} {compField : BitVec 7}
      {destField jumpField : BitVec 3} (computes : compTable.lookup comp = some compField)
      (stores : destTable.lookup (dest.getD "") = some destField)
      (jumps : jumpTable.lookup (jump.getD "") = some jumpField) :
      WordText statements (.compute dest comp jump)
        ("111" ++ Binary.text compField ++ Binary.text destField ++ Binary.text jumpField)

/-- A word belongs to an instruction of a program, which comes with its place among the
    instructions. -/
structure Word.BelongsTo (statements : List Statement) (entry : Statement × Nat) (word : Word) :
    Prop where
  address : word.address = entry.2
  line : word.line = entry.1.line
  command : word.command = entry.1.command
  bits : Statement.WordText statements entry.1.command word.bitText

theorem Statement.wordText_load {statements : List Statement} {symbol : String}
    (h : value statements symbol ≤ 32767) :
    WordText statements (.address symbol)
      (Binary.text (0b0#1 ++ BitVec.ofNat 15 (value statements symbol))) := by
  rw [Instruction.text_load]
  exact .load h

theorem Statement.wordText_compute {statements : List Statement} {dest jump : Option String}
    {comp : String} {compField : BitVec 7} {destField jumpField : BitVec 3}
    (hcomp : compTable.lookup comp = some compField)
    (hdest : destTable.lookup (dest.getD "") = some destField)
    (hjump : jumpTable.lookup (jump.getD "") = some jumpField) :
    WordText statements (.compute dest comp jump)
      (Binary.text (Instruction.computeWord compField destField jumpField)) := by
  rw [Instruction.text_computeWord]
  exact .compute hcomp hdest hjump

/-- A computation without fault has its three codes. -/
theorem exists_fields_of_faultless {statements : List Statement} {line : Line}
    {dest jump : Option String} {comp : String}
    (hcomputes : Command.ofTokens line.tokens = .ok (.compute dest comp jump))
    (h : ∀ error, ¬ WordFault statements line error) :
    ∃ compField destField jumpField, compTable.lookup comp = some compField ∧
      destTable.lookup (dest.getD "") = some destField ∧
      jumpTable.lookup (jump.getD "") = some jumpField := by
  -- The mnemonics are known in the order in which they are looked up.
  have hcomp : comp ∈ compTable.map Prod.fst := by
    by_contra hunknown
    exact h _ (.computation hcomputes hunknown)
  have hdest : ∀ name ∈ dest, name ∈ destTable.map Prod.fst := by
    rintro name rfl
    by_contra hunknown
    exact h _ (.destination hcomputes hcomp hunknown)
  have hjump : ∀ name ∈ jump, name ∈ jumpTable.map Prod.fst := by
    rintro name rfl
    by_contra hunknown
    exact h _ (.condition hcomputes hcomp hdest hunknown)
  obtain ⟨compField, hcompField⟩ := Instruction.exists_lookup_of_mem hcomp
  obtain ⟨destField, hdestField⟩ := Instruction.exists_lookup_of_mem
    (Instruction.getD_mem Instruction.empty_mem_destTable hdest)
  obtain ⟨jumpField, hjumpField⟩ := Instruction.exists_lookup_of_mem
    (Instruction.getD_mem Instruction.empty_mem_jumpTable hjump)
  exact ⟨compField, destField, jumpField, hcompField, hdestField, hjumpField⟩

namespace Emission

open Statement (fixedAddress? variableAddress? variablesIn LabelsFit value)

variable {emission : Emission} {line : Nat} {symbol : String}

/-! ## Addresses -/

theorem literal_of_lt (hne : symbol ≠ "") (hdecimal : Text.isDecimal symbol = true)
    (h : Text.decimalValue symbol.toList < literalBound) :
    literal line symbol = .ok (Text.decimalValue symbol.toList) := by
  rw [literal, Text.readDecimal?, if_pos ⟨hne, hdecimal⟩]
  exact if_pos h

theorem literal_of_le (line : Nat) (hne : symbol ≠ "") (hdecimal : Text.isDecimal symbol = true)
    (h : literalBound ≤ Text.decimalValue symbol.toList) :
    literal line symbol = .error (.addressRange line symbol) := by
  rw [literal, Text.readDecimal?, if_pos ⟨hne, hdecimal⟩]
  exact if_neg (by omega)

/-- A symbol that has an address keeps it. -/
theorem allocate_of_known {address : Address} (h : emission.symbols.get? symbol = some address) :
    emission.allocate line symbol = pure emission := by
  rw [allocate, SymbolTable.contains_eq_isSome, h]
  rfl

/-- A new symbol gets the next address. -/
theorem allocate_of_fresh (line : Nat) (h : emission.symbols.get? symbol = none)
    (hfits : emission.nextVariable < 65536) :
    emission.allocate line symbol =
      ⟨[.variableBound symbol (BitVec.ofNat 16 emission.nextVariable)],
        .ok { emission with
          symbols := emission.symbols.insert symbol (BitVec.ofNat 16 emission.nextVariable)
          nextVariable := emission.nextVariable + 1 }⟩ := by
  rw [allocate, SymbolTable.contains_eq_isSome, h, Binary.field?_of_lt hfits]
  rfl

theorem result_resolve_of_isDecimal (hdecimal : Text.isDecimal symbol = true) {number : Nat}
    (h : literal line symbol = .ok number) :
    (emission.resolve line symbol).result = .ok (number, emission) := by
  rw [resolve, if_pos hdecimal, h]
  rfl

theorem result_resolve_of_refused (hdecimal : Text.isDecimal symbol = true) {error : Error}
    (h : literal line symbol = .error error) :
    (emission.resolve line symbol).result = .error error := by
  rw [resolve, if_pos hdecimal, h]
  rfl

theorem result_resolve_of_symbol (hdecimal : Text.isDecimal symbol = false) {next : Emission}
    {address : Address} (hallocate : (emission.allocate line symbol).result = .ok next)
    (h : next.symbols.get? symbol = some address) :
    (emission.resolve line symbol).result = .ok (address.toNat, next) := by
  rw [resolve, if_neg (by simp [hdecimal]), Report.result_bind_of_ok hallocate, addressOf, h]
  rfl

/-! ## Symbols met so far -/

/-- The symbols of a program of which the statements `earlier` are behind. -/
structure Knows (statements earlier : List Statement) (emission : Emission) : Prop where
  nextVariable : emission.nextVariable = variableBase + (variablesIn statements earlier).length
  symbols : ∀ name, emission.symbols.get? name =
    (fixedAddress? statements name).or (variableAddress? statements earlier name)

variable {statements earlier later : List Statement} {statement : Statement}

theorem knows_start {labels : Labels} (h : labels.Collects statements) :
    Knows statements [] (start labels.symbols) where
  nextVariable := rfl
  symbols name := by
    have hnone : variableAddress? statements [] name = none := rfl
    rw [hnone, Option.or_none]
    exact h.symbols name

/-- Nothing changes as long as no variable is new. -/
theorem Knows.of_variablesIn_eq (hknows : Knows statements earlier emission)
    (h : variablesIn statements (earlier ++ [statement]) = variablesIn statements earlier) :
    Knows statements (earlier ++ [statement]) emission where
  nextVariable := by
    rw [h]
    exact hknows.nextVariable
  symbols name := by
    rw [variableAddress?, h]
    exact hknows.symbols name

/-- A new variable takes the next address. -/
theorem Knows.insert (hknows : Knows statements earlier emission) {name : String}
    (hfixed : fixedAddress? statements name = none)
    (hfresh : name ∉ variablesIn statements earlier)
    (h : variablesIn statements (earlier ++ [statement]) =
      variablesIn statements earlier ++ [name]) :
    Knows statements (earlier ++ [statement])
      { emission with
        symbols := emission.symbols.insert name (BitVec.ofNat 16 emission.nextVariable)
        nextVariable := emission.nextVariable + 1 } where
  nextVariable := by
    show emission.nextVariable + 1 = _
    rw [h, hknows.nextVariable, List.length_append, List.length_singleton, Nat.add_assoc]
  symbols other := by
    rw [SymbolTable.get?_insert, hknows.symbols, variableAddress?, variableAddress?, h]
    -- The new name is put behind the known ones, which keep their places.
    by_cases hother : name = other
    · obtain rfl := hother
      simp [hfixed, hfresh, hknows.nextVariable, List.idxOf_append]
    · have hmem : other ∈ variablesIn statements earlier ++ [name] ↔
          other ∈ variablesIn statements earlier := by
        rw [List.mem_append, List.mem_singleton]
        exact ⟨fun hor => hor.resolve_right (Ne.symm hother), .inl⟩
      by_cases hearlier : other ∈ variablesIn statements earlier
      · simp [hother, hearlier, List.idxOf_append]
      · simp [hother, hmem, hearlier]

/-- Looking up a symbol gives its value, and leads to a state that knows the statements `behind`. If
    the symbol is a new variable, then the next variable comes right behind it. -/
def Resolves (statements behind : List Statement) (emission : Emission) (line : Nat)
    (symbol : String) : Prop :=
  ∃ next, (emission.resolve line symbol).result = .ok (value statements symbol, next) ∧
    Knows statements behind next ∧ next.words = emission.words ∧
    next.nextVariable ≤ max emission.nextVariable (value statements symbol + 1)

theorem Knows.resolves_of_isDecimal (hknows : Knows statements earlier emission) (line : Nat)
    (hcommand : statement.command = .address symbol) (hne : symbol ≠ "")
    (hdecimal : Text.isDecimal symbol = true)
    (hsmall : Text.decimalValue symbol.toList < literalBound) :
    Resolves statements (earlier ++ [statement]) emission line symbol := by
  have hsame := Statement.variablesIn_append_singleton_of_address statements earlier hcommand
    fun hsymbol => by simp [hdecimal] at hsymbol
  refine ⟨emission, ?_, hknows.of_variablesIn_eq hsame, rfl, Nat.le_max_left ..⟩
  rw [Statement.value_of_isDecimal statements hdecimal]
  exact result_resolve_of_isDecimal hdecimal (literal_of_lt hne hdecimal hsmall)

/-- A symbol with an address is looked up in the table, which stays as it is. -/
theorem Knows.resolves_of_known (hknows : Knows statements earlier emission) (line : Nat)
    (hdecimal : Text.isDecimal symbol = false) {address : Address}
    (hsymbol : emission.symbols.get? symbol = some address)
    (hvalue : value statements symbol = address.toNat)
    (hsame : variablesIn statements (earlier ++ [statement]) = variablesIn statements earlier) :
    Resolves statements (earlier ++ [statement]) emission line symbol := by
  have hallocate : (emission.allocate line symbol).result = .ok emission := by
    rw [allocate_of_known hsymbol]
    rfl
  refine ⟨emission, ?_, hknows.of_variablesIn_eq hsame, rfl, Nat.le_max_left ..⟩
  rw [hvalue]
  exact result_resolve_of_symbol hdecimal hallocate hsymbol

/-- A variable that is met for the first time gets the next address. -/
theorem Knows.resolves_of_fresh (hknows : Knows statements earlier emission) (line : Nat)
    (hstatements : statements = earlier ++ statement :: later)
    (hcommand : statement.command = .address symbol) (hdecimal : Text.isDecimal symbol = false)
    (hfixed : fixedAddress? statements symbol = none)
    (hfresh : symbol ∉ variablesIn statements earlier)
    (hsymbol : emission.symbols.get? symbol = none) (hnext : emission.nextVariable ≤ 32768) :
    Resolves statements (earlier ++ [statement]) emission line symbol := by
  have hfits : emission.nextVariable < 65536 := by omega
  have hvalue : value statements symbol = emission.nextVariable := by
    rw [hknows.nextVariable,
      Statement.value_of_first_use hstatements hcommand hdecimal hfixed hfresh]
  have hnew := Statement.variablesIn_append_singleton_of_fresh hcommand hdecimal hfixed hfresh
  have hallocate := congrArg Report.result (allocate_of_fresh line hsymbol hfits)
  refine ⟨_, ?_, hknows.insert hfixed hfresh hnew, rfl, ?_⟩
  · rw [result_resolve_of_symbol hdecimal hallocate
      (by rw [SymbolTable.get?_insert, if_pos rfl]), hvalue, BitVec.toNat_ofNat,
      Nat.mod_eq_of_lt hfits]
  · rw [hvalue]
    exact Nat.le_max_right ..

/-- An address that is not too large stands for its value, and its symbol is known from then on. -/
theorem Knows.resolves (hknows : Knows statements earlier emission) (line : Nat)
    (hfit : LabelsFit statements) (hstatements : statements = earlier ++ statement :: later)
    (hcommand : statement.command = .address symbol) (hne : symbol ≠ "")
    (hnext : emission.nextVariable ≤ 32768)
    (hliteral : Text.isDecimal symbol = true → value statements symbol < literalBound) :
    Resolves statements (earlier ++ [statement]) emission line symbol := by
  have hsame := Statement.variablesIn_append_singleton_of_address statements earlier hcommand
  cases hdecimal : Text.isDecimal symbol with
  | true =>
    have hsmall := hliteral hdecimal
    rw [Statement.value_of_isDecimal statements hdecimal] at hsmall
    exact hknows.resolves_of_isDecimal line hcommand hne hdecimal hsmall
  | false =>
    -- Whether the table has the symbol is known from the statements alone.
    have hsymbol := hknows.symbols symbol
    cases hfixed : fixedAddress? statements symbol with
    | some address =>
      rw [hfixed, Option.some_or] at hsymbol
      exact hknows.resolves_of_known line hdecimal hsymbol
        (Statement.value_of_fixedAddress? hfit hdecimal hfixed)
        (hsame fun _ hfree => by simp [hfixed] at hfree)
    | none =>
      rw [hfixed, Option.none_or, variableAddress?] at hsymbol
      by_cases hearlier : symbol ∈ variablesIn statements earlier
      · rw [if_pos hearlier] at hsymbol
        -- All variables met so far lie below the next one, so the address is not cut off.
        have hidx := List.idxOf_lt_length_of_mem hearlier
        have hbound := hknows.nextVariable
        refine hknows.resolves_of_known line hdecimal hsymbol ?_ (hsame fun _ _ => hearlier)
        rw [Statement.value_of_variable hdecimal hfixed,
          Statement.idxOf_variableNames hstatements hearlier, BitVec.toNat_ofNat,
          Nat.mod_eq_of_lt (by omega)]
      · rw [if_neg hearlier] at hsymbol
        exact hknows.resolves_of_fresh line hstatements hcommand hdecimal hfixed hearlier hsymbol
          hnext

/-! ## One statement -/

/-- The words of the statements behind, and what is known of the symbols. -/
structure Follows (statements earlier : List Statement) (emission : Emission) : Prop
    extends Knows statements earlier emission where
  words : List.Forall₂ (Word.BelongsTo statements) (Statement.instructions earlier).zipIdx
    emission.words.toList
  bounded : emission.nextVariable ≤ 32768

theorem follows_start {labels : Labels} (h : labels.Collects statements) :
    Follows statements [] (start labels.symbols) where
  toKnows := knows_start h
  words := .nil
  bounded := by
    show variableBase ≤ 32768
    decide

/-- A label has no word. -/
theorem Follows.label (hfollows : Follows statements earlier emission) {name : String}
    (hcommand : statement.command = .label name) :
    Follows statements (earlier ++ [statement]) emission where
  toKnows := hfollows.of_variablesIn_eq
    (Statement.variablesIn_append_singleton_of_not_address _ _ (by simp [hcommand]))
  words := by
    have hnone : Statement.instructions [statement] = [] := by
      simp [Statement.instructions, hcommand, Command.isInstruction]
    rw [Statement.instructions_append, hnone, List.append_nil]
    exact hfollows.words
  bounded := hfollows.bounded

/-- An instruction has the word that is added for it. -/
theorem Follows.push (hfollows : Follows statements earlier emission) {next : Emission}
    (hknows : Knows statements (earlier ++ [statement]) next)
    (hwords : next.words = emission.words) (hbounded : next.nextVariable ≤ 32768)
    (hcommand : statement.command.isInstruction = true) {bits : MachineWord}
    (htext : Statement.WordText statements statement.command (Binary.text bits)) :
    ∃ final,
      (next.push statement.line statement.command (.ok bits)).result = .ok final ∧
      Follows statements (earlier ++ [statement]) final := by
  refine ⟨_, rfl, ⟨hknows.nextVariable, hknows.symbols⟩, ?_, hbounded⟩
  have hlast : Statement.instructions [statement] = [statement] := by
    simp [Statement.instructions, hcommand]
  have hsize : next.words.size = (Statement.instructions earlier).length := by
    have hlength := hfollows.words.length_eq
    rw [List.length_zipIdx] at hlength
    rw [hwords, hlength, Array.length_toList]
  rw [Statement.instructions_append, hlast, List.zipIdx_append, Array.toList_push, hwords]
  refine List.rel_append hfollows.words (.cons ⟨?_, rfl, rfl, htext⟩ .nil)
  show emission.words.size = 0 + _
  rw [← hwords, hsize, Nat.zero_add]

/-! ## One line -/

theorem result_addLine {line : Line} (h : line.Reads statement) (emission : Emission) :
    (emission.addLine line).result =
      (emission.addCommand statement.line statement.command).result := by
  have hread : line.read.result = .ok (some statement.command) := h.command?
  rw [addLine, Report.result_bind_of_ok hread, h.1]

theorem result_addCommand_address {next : Emission} {number : Nat}
    (h : (emission.resolve line symbol).result = .ok (number, next)) :
    (emission.addCommand line (.address symbol)).result =
      (next.push line (.address symbol) (Instruction.load number)).result := by
  rw [addCommand, Report.result_bind_of_ok h]

/-- A statement without fault goes on with its word. -/
theorem Follows.goes (hfollows : Follows statements earlier emission)
    (hfit : LabelsFit statements) (hstatements : statements = earlier ++ statement :: later)
    {line : Line} (hreads : line.Reads statement)
    (hlexeme : ∀ token ∈ line.tokens, token.IsLexeme)
    (hfaultless : ∀ error, ¬ WordFault statements line error) :
    ∃ final, (emission.addLine line).result = .ok final ∧
      Follows statements (earlier ++ [statement]) final := by
  rw [result_addLine hreads]
  obtain ⟨number, command⟩ := statement
  cases command with
  | label name => exact ⟨emission, rfl, hfollows.label rfl⟩
  | address symbol =>
    have hsmall : value statements symbol ≤ 32767 := by
      by_contra hlarge
      exact hfaultless _ (.addressRange hreads.2 (by omega))
    obtain ⟨next, hnext, hknows, hwords, hbounded⟩ := hfollows.resolves number hfit
      hstatements rfl (hreads.symbol_ne_empty hlexeme rfl) hfollows.bounded
      (fun _ => by rw [literalBound]; omega)
    -- A new variable has an address of 15 bits, since a larger one would be a fault.
    have hlast := hfollows.bounded
    obtain ⟨final, hfinal, hfollows'⟩ := hfollows.push hknows hwords (by omega) rfl
      (Statement.wordText_load hsmall)
    refine ⟨final, ?_, hfollows'⟩
    rw [result_addCommand_address hnext, Instruction.load_of_le hsmall]
    exact hfinal
  | compute dest comp jump =>
    obtain ⟨compField, destField, jumpField, hcomp, hdest, hjump⟩ :=
      exists_fields_of_faultless hreads.2 hfaultless
    have hsame : variablesIn statements (earlier ++ [⟨number, .compute dest comp jump⟩]) =
        variablesIn statements earlier :=
      Statement.variablesIn_append_singleton_of_not_address statements earlier (by simp)
    have hknows := hfollows.of_variablesIn_eq hsame
    obtain ⟨final, hfinal, hfollows'⟩ := hfollows.push hknows rfl hfollows.bounded rfl
      (Statement.wordText_compute hcomp hdest hjump)
    refine ⟨final, ?_, hfollows'⟩
    rw [addCommand, Instruction.compute_of_lookup hcomp hdest hjump]
    exact hfinal

/-- A value that is too large is reported when the address is looked up or when it is loaded. -/
theorem Follows.result_addCommand_of_large (hfollows : Follows statements earlier emission)
    (line : Nat) (hfit : LabelsFit statements)
    (hstatements : statements = earlier ++ statement :: later)
    (hcommand : statement.command = .address symbol) (hne : symbol ≠ "")
    (hlarge : 32767 < value statements symbol) :
    (emission.addCommand line (.address symbol)).result =
      .error (.addressRange line (Statement.valueText statements symbol)) := by
  -- A literal that is no 32-bit number is refused before there is a number to load.
  by_cases hliteral : Text.isDecimal symbol = true ∧ literalBound ≤ value statements symbol
  · have hvalue := Statement.value_of_isDecimal statements hliteral.1
    have hrefused := literal_of_le line hne hliteral.1 (hvalue ▸ hliteral.2)
    rw [addCommand, Report.result_bind_of_error (result_resolve_of_refused hliteral.1 hrefused),
      Statement.valueText, if_pos hliteral]
  · have hsmall (hdecimal : Text.isDecimal symbol = true) :
        value statements symbol < literalBound := by
      by_contra hbeyond
      exact hliteral ⟨hdecimal, Nat.le_of_not_lt hbeyond⟩
    obtain ⟨next, hnext, -⟩ :=
      hfollows.resolves line hfit hstatements hcommand hne hfollows.bounded hsmall
    rw [result_addCommand_address hnext, Instruction.load_of_lt hlarge, Statement.valueText,
      if_neg hliteral]
    rfl

/-- A statement at fault ends with its fault. -/
theorem Follows.ends (hfollows : Follows statements earlier emission)
    (hfit : LabelsFit statements) (hstatements : statements = earlier ++ statement :: later)
    {line : Line} (hreads : line.Reads statement)
    (hlexeme : ∀ token ∈ line.tokens, token.IsLexeme) {error : Error}
    (hfault : WordFault statements line error) :
    (emission.addLine line).result = .error error := by
  rw [result_addLine hreads, hreads.1]
  cases hfault with
  | addressRange hloads hlarge =>
    have hcommand := hreads.command_eq hloads
    rw [hcommand]
    exact hfollows.result_addCommand_of_large line.number hfit hstatements hcommand
      (hreads.symbol_ne_empty hlexeme hcommand) hlarge
  | computation hcomputes hunknown =>
    rw [hreads.command_eq hcomputes, addCommand, Instruction.compute_of_unknown_comp hunknown]
    rfl
  | destination hcomputes hknown hunknown =>
    rw [hreads.command_eq hcomputes, addCommand,
      Instruction.compute_of_unknown_dest hknown hunknown]
    rfl
  | condition hcomputes hknown hstored hunknown =>
    -- A destination that is left out has its mnemonic too.
    have hdest := Instruction.getD_mem Instruction.empty_mem_destTable hstored
    rw [hreads.command_eq hcomputes, addCommand,
      Instruction.compute_of_unknown_jump hknown hdest hunknown]
    rfl

/-! ## All lines -/

/-- A walk through the lines of a program keeps the invariant up to the first fault. -/
theorem tracks {lines : List Line} {labels : Labels}
    (hreads : List.Forall₂ Line.Reads lines statements) (hcollects : labels.Collects statements)
    (hlexeme : ∀ line ∈ lines, ∀ token ∈ line.tokens, token.IsLexeme) :
    Report.Tracks addLine (fun _ line error => WordFault statements line error)
      (fun before emission => Follows statements (statements.take before.length) emission)
      lines where
  goes {before line after emission} hlines hfollows hfaultless := by
    -- The statements behind are those of the lines behind.
    obtain ⟨earlier, statement, later, hstatements, hearlier, hline, -⟩ :=
      exists_split_of_forall₂ (hlines ▸ hreads)
    have htake : statements.take before.length = earlier := by
      rw [hstatements, hearlier.length_eq, List.take_left]
    have htake' : statements.take (before ++ [line]).length = earlier ++ [statement] := by
      rw [List.length_append, List.length_singleton, hearlier.length_eq, hstatements,
        List.take_length_add_append, List.take_succ_cons, List.take_zero]
    rw [htake] at hfollows
    rw [htake']
    exact hfollows.goes hcollects.fit hstatements hline
      (hlexeme line (by rw [hlines]; simp)) hfaultless
  ends {before line after emission error} hlines hfollows hfault := by
    obtain ⟨earlier, statement, later, hstatements, hearlier, hline, -⟩ :=
      exists_split_of_forall₂ (hlines ▸ hreads)
    have htake : statements.take before.length = earlier := by
      rw [hstatements, hearlier.length_eq, List.take_left]
    rw [htake] at hfollows
    exact hfollows.ends hcollects.fit hstatements hline
      (hlexeme line (by rw [hlines]; simp)) hfault

variable {lines : List Line} {labels : Labels}

/-- Lines without fault come to their words. -/
theorem ofLines_of_faultless (hreads : List.Forall₂ Line.Reads lines statements)
    (hcollects : labels.Collects statements)
    (hlexeme : ∀ line ∈ lines, ∀ token ∈ line.tokens, token.IsLexeme)
    (h : Faultless (fun _ line error => WordFault statements line error) lines) :
    ∃ emission, (ofLines labels.symbols lines).result = .ok emission ∧
      Follows statements statements emission := by
  obtain ⟨emission, hemission, hfollows⟩ :=
    (tracks hreads hcollects hlexeme).result_of_faultless (follows_start hcollects) h
  rw [List.take_of_length_le (by rw [hreads.length_eq])] at hfollows
  exact ⟨emission, hemission, hfollows⟩

/-- The first fault ends the emission. -/
theorem ofLines_of_firstFault (hreads : List.Forall₂ Line.Reads lines statements)
    (hcollects : labels.Collects statements)
    (hlexeme : ∀ line ∈ lines, ∀ token ∈ line.tokens, token.IsLexeme) {line : Line} {error : Error}
    (h : FirstFault (fun _ line error => WordFault statements line error) lines line error) :
    (ofLines labels.symbols lines).result = .error error :=
  (tracks hreads hcollects hlexeme).result_of_firstFault (follows_start hcollects) h

end Emission

end HackAssembler
