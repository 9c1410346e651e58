/-
  HackAssembler.Proofs.Program.Statement

  How the notions of `HackAssembler.Program.Meaning` grow with the program. The passes go through
  the statements from the first to the last, so everything is said of a program that is cut in
  two: how many instructions there are, where a name was declared last, and which variables were
  used so far.
-/
import HackAssembler.Program.Meaning
import HackAssembler.Proofs.Command.Reader
import HackAssembler.Proofs.Line

namespace HackAssembler

/-! ## Lines and their statements -/

/-- An identifier is no number. -/
theorem Token.IsLexeme.isDecimal {name : String} (h : (Token.identifier name).IsLexeme) :
    Text.isDecimal name = false := by
  obtain ⟨c, rest, hlist, hstart, -⟩ := h
  rw [Text.isDecimal, hlist, List.all_cons, isDigit_of_isIdentifierStart hstart, Bool.false_and]

/-- A line and the statement on it. -/
def Line.Reads (line : Line) (statement : Statement) : Prop :=
  statement.line = line.number ∧ Command.ofTokens line.tokens = .ok statement.command

namespace Line.Reads

variable {line : Line} {statement : Statement}

/-- The command of a line is settled by its tokens. -/
theorem command_eq (h : line.Reads statement) {command : Command}
    (hcommand : Command.ofTokens line.tokens = .ok command) : statement.command = command := by
  rw [h.2] at hcommand
  exact Except.ok.inj hcommand

theorem tokens_ne_nil (h : line.Reads statement) : line.tokens ≠ [] :=
  (Command.derives_of_ofTokens h.2).ne_nil

theorem command? (h : line.Reads statement) : line.command? = .ok (some statement.command) :=
  Line.command?_of_ok h.tokens_ne_nil h.2

/-- What is loaded has a text. -/
theorem symbol_ne_empty (h : line.Reads statement)
    (hlexeme : ∀ token ∈ line.tokens, token.IsLexeme) {symbol : String}
    (hcommand : statement.command = .address symbol) : symbol ≠ "" := by
  obtain ⟨v, hmem, hv⟩ := Command.operand_mem_of_address (hcommand ▸ h.2)
  have hv' := hlexeme v hmem
  cases hv with
  | number => exact hv'.1
  | identifier =>
    obtain ⟨c, rest, hlist, -, -⟩ := hv'
    rintro rfl
    cases hlist

/-- A label is no number. -/
theorem isDecimal_of_label (h : line.Reads statement)
    (hlexeme : ∀ token ∈ line.tokens, token.IsLexeme) {name : String}
    (hcommand : statement.command = .label name) : Text.isDecimal name = false :=
  (hlexeme _ (Command.identifier_mem_of_label (hcommand ▸ h.2))).isDecimal

end Line.Reads

namespace Statement

theorem ofLines_eq_ok_of_reads {lines : List Line} {statements : List Statement}
    (h : List.Forall₂ Line.Reads lines statements) : ofLines lines = .ok statements := by
  induction h with
  | nil => rfl
  | @cons line statement lines statements hline _ ih =>
    have hstatement : (⟨line.number, statement.command⟩ : Statement) = statement := by
      rw [← hline.1]
    rw [ofLines, hline.command?, ih]
    exact congrArg (fun first => Except.ok (first :: statements)) hstatement

theorem reads_of_ofLines {lines : List Line} (hne : ∀ line ∈ lines, line.tokens ≠ [])
    {statements : List Statement} (h : ofLines lines = .ok statements) :
    List.Forall₂ Line.Reads lines statements := by
  induction lines generalizing statements with
  | nil =>
    cases h
    exact .nil
  | cons line lines ih =>
    rw [List.forall_mem_cons] at hne
    obtain ⟨command?, hcommand?, h⟩ := except_bind_eq_ok_iff.mp h
    obtain ⟨others, hothers, h⟩ := except_bind_eq_ok_iff.mp h
    cases hcommand : Command.ofTokens line.tokens with
    | error fault =>
      rw [line.command?_of_refused hne.1 hcommand] at hcommand?
      cases hcommand?
    | ok command =>
      rw [line.command?_of_ok hne.1 hcommand] at hcommand?
      cases hcommand?
      cases h
      exact .cons ⟨rfl, hcommand⟩ (ih hne.2 hothers)

/-- The statements of some lines are settled by the lines. -/
theorem eq_of_reads {lines : List Line} {statements others : List Statement}
    (h : List.Forall₂ Line.Reads lines statements) (h' : List.Forall₂ Line.Reads lines others) :
    statements = others := by
  have hok := ofLines_eq_ok_of_reads h
  rw [ofLines_eq_ok_of_reads h'] at hok
  exact (Except.ok.inj hok).symm

/-- A command stands in a program if it stands on a line of it. -/
theorem exists_command_iff_of_reads {lines : List Line} {statements : List Statement}
    (h : List.Forall₂ Line.Reads lines statements) (command : Command) :
    (∃ statement ∈ statements, statement.command = command) ↔
      ∃ line ∈ lines, Command.ofTokens line.tokens = .ok command := by
  constructor
  · rintro ⟨statement, hstatement, rfl⟩
    obtain ⟨line, hline, hreads⟩ := exists_of_forall₂_of_mem h hstatement
    exact ⟨line, hline, hreads.2⟩
  · rintro ⟨line, hline, hcommand⟩
    obtain ⟨statement, hstatement, hreads⟩ := exists_of_forall₂_of_mem h.flip hline
    exact ⟨statement, hstatement, Line.Reads.command_eq hreads hcommand⟩

/-! ## Programs cut in two -/

theorem instructions_append (statements more : List Statement) :
    instructions (statements ++ more) = instructions statements ++ instructions more :=
  List.filter_append ..

theorem used_append (statements more : List Statement) :
    used (statements ++ more) = used statements ++ used more :=
  List.filterMap_append

/-- The symbols of the instructions are used, unless they are numbers. -/
theorem used_eq_filter (statements : List Statement) :
    used statements =
      (((instructions statements).map Statement.command).filterMap Command.symbol?).filter
        fun symbol => !Text.isDecimal symbol := by
  induction statements with
  | nil => rfl
  | cons statement statements ih =>
    rw [← List.singleton_append, used_append, instructions_append, List.map_append,
      List.filterMap_append, List.filter_append, ← ih]
    congr 1
    cases hcommand : statement.command with
    | address symbol => cases hdecimal : Text.isDecimal symbol <;>
        simp [used, instructions, hcommand, hdecimal, Command.isInstruction, Command.symbol?]
    | compute dest comp jump =>
      simp [used, instructions, hcommand, Command.isInstruction, Command.symbol?]
    | label name => simp [used, instructions, hcommand, Command.isInstruction]

/-- Which symbols are used is settled by the commands of the instructions. -/
theorem used_eq_of_instructions {statements others : List Statement}
    (h : (instructions others).map Statement.command =
      (instructions statements).map Statement.command) :
    used others = used statements := by
  rw [used_eq_filter, used_eq_filter, h]

theorem declared_append (statements more : List Statement) :
    declared (statements ++ more) = declared statements ++ declared more :=
  List.filterMap_append

theorem mem_declared {statements : List Statement} {name : String} :
    name ∈ declared statements ↔ ∃ statement ∈ statements, statement.command = .label name := by
  rw [declared, List.mem_filterMap]
  constructor
  · rintro ⟨statement, hmem, h⟩
    refine ⟨statement, hmem, ?_⟩
    split at h <;> simp_all
  · rintro ⟨statement, hmem, h⟩
    exact ⟨statement, hmem, by rw [h]⟩

theorem declaration?_append (name : String) (statements more : List Statement) :
    declaration? name (statements ++ more) =
      match declaration? name more with
      | some count => some ((instructions statements).length + count)
      | none => declaration? name statements := by
  -- On the first part: each of its instructions moves the later declarations by one.
  induction statements with
  | nil =>
    rw [List.nil_append]
    cases declaration? name more with
    | none => rfl
    | some count => simp [instructions]
  | cons statement statements ih =>
    rw [List.cons_append, declaration?, ih]
    cases hmore : declaration? name more with
    | none => rfl
    | some count =>
      simp only [instructions, List.filter_cons]
      split
      · simp only [List.length_cons]
        congr 1
        omega
      · rfl

theorem declaration?_eq_none_iff {name : String} {statements : List Statement} :
    declaration? name statements = none ↔ name ∉ declared statements := by
  induction statements with
  | nil => simp [declaration?, declared]
  | cons statement statements ih =>
    have hcons : name ∈ declared (statement :: statements) ↔
        statement.command = .label name ∨ name ∈ declared statements := by
      simp [mem_declared]
    rw [hcons, declaration?]
    -- A later declaration goes before the one on this line.
    cases hlater : declaration? name statements with
    | none =>
      rw [hlater] at ih
      have := ih.mp rfl
      simp [this]
    | some count =>
      have : name ∈ declared statements := by
        by_contra hnot
        rw [ih.mpr hnot] at hlater
        cases hlater
      simp [this]

/-! ## Variables so far -/

/-- The uses of variables of a program in `earlier`, in order. -/
def variableUses (statements earlier : List Statement) : List String :=
  (used earlier).filter fun name =>
    !(declared statements).contains name && !isReserved name

/-- The variables of a program that are used in `earlier`, each once, in the order of their first
    use. -/
def variablesIn (statements earlier : List Statement) : List String :=
  (variableUses statements earlier).eraseDups

theorem variableNames_eq (statements : List Statement) :
    variableNames statements = variablesIn statements statements := rfl

theorem mem_used {statements : List Statement} {name : String} :
    name ∈ used statements ↔
      Text.isDecimal name = false ∧ ∃ statement ∈ statements, statement.command = .address name := by
  rw [used, List.mem_filterMap]
  constructor
  · rintro ⟨statement, hmem, h⟩
    split at h
    · rename_i symbol hcommand
      split at h
      · cases h
      · rename_i hdecimal
        cases h
        exact ⟨by simpa using hdecimal, statement, hmem, hcommand⟩
    · cases h
  · rintro ⟨hdecimal, statement, hmem, hcommand⟩
    refine ⟨statement, hmem, ?_⟩
    simp [hcommand, hdecimal]

theorem mem_variableUses {statements earlier : List Statement} {name : String} :
    name ∈ variableUses statements earlier ↔
      name ∈ used earlier ∧ name ∉ declared statements ∧ isReserved name = false := by
  simp [variableUses]

theorem mem_variablesIn {statements earlier : List Statement} {name : String} :
    name ∈ variablesIn statements earlier ↔
      name ∈ used earlier ∧ name ∉ declared statements ∧ isReserved name = false := by
  rw [variablesIn, List.mem_eraseDups, mem_variableUses]

/-- Variables that are used later come behind the earlier ones. -/
theorem variablesIn_append (statements earlier later : List Statement) :
    variablesIn statements (earlier ++ later) =
      variablesIn statements earlier ++
        ((variableUses statements later).removeAll (variableUses statements earlier)).eraseDups := by
  rw [variablesIn, variableUses, used_append, List.filter_append, List.eraseDups_append]
  rfl

/-- A statement that uses no new variable leaves the variables as they are. -/
theorem variablesIn_append_singleton_of_known {statements earlier : List Statement}
    {statement : Statement}
    (h : ∀ name ∈ variablesIn statements [statement], name ∈ variablesIn statements earlier) :
    variablesIn statements (earlier ++ [statement]) = variablesIn statements earlier := by
  -- What the statement uses was used before, so nothing is left to be put behind.
  have hnone : (variableUses statements [statement]).removeAll (variableUses statements earlier) =
      [] := by
    rw [List.removeAll, List.filter_eq_nil_iff]
    intro name hname
    have hearlier := h name (List.mem_eraseDups.mpr hname)
    rw [variablesIn, List.mem_eraseDups] at hearlier
    simp [hearlier]
  rw [variablesIn_append, hnone, List.eraseDups_nil, List.append_nil]

/-! ## Addresses of names -/

/-- The address of a name that needs no variable: that of its last declaration, or the one that
    the machine gives it. -/
def fixedAddress? (statements : List Statement) (name : String) : Option Address :=
  match declaration? name statements with
  | some count => some (BitVec.ofNat 16 count)
  | none => reservedSymbols.lookup name

/-- The address of a variable that was met so far. -/
def variableAddress? (statements earlier : List Statement) (name : String) : Option Address :=
  if name ∈ variablesIn statements earlier then
    some (BitVec.ofNat 16 (variableBase + (variablesIn statements earlier).idxOf name))
  else none

theorem isReserved_eq_isSome (name : String) :
    isReserved name = (reservedSymbols.lookup name).isSome := by
  rw [Bool.eq_iff_iff, List.lookup_isSome_iff, isReserved, List.any_eq_true]
  constructor
  · rintro ⟨entry, hmem, h⟩
    exact ⟨entry, hmem, beq_iff_eq.mpr (eq_of_beq h).symm⟩
  · rintro ⟨entry, hmem, h⟩
    exact ⟨entry, hmem, beq_iff_eq.mpr (eq_of_beq h).symm⟩

theorem fixedAddress?_eq_none_iff {statements : List Statement} {name : String} :
    fixedAddress? statements name = none ↔
      name ∉ declared statements ∧ isReserved name = false := by
  rw [fixedAddress?, ← declaration?_eq_none_iff, isReserved_eq_isSome]
  cases declaration? name statements <;> simp

/-! ## Uses of variables -/

/-- A statement that loads a number, a name with a fixed address or a variable of before leaves the
    variables as they are. -/
theorem variablesIn_append_singleton_of_address (statements earlier : List Statement)
    {statement : Statement} {symbol : String} (hcommand : statement.command = .address symbol)
    (h : Text.isDecimal symbol = false → fixedAddress? statements symbol = none →
      symbol ∈ variablesIn statements earlier) :
    variablesIn statements (earlier ++ [statement]) = variablesIn statements earlier := by
  apply variablesIn_append_singleton_of_known
  intro name hname
  obtain ⟨hused, hfree⟩ := mem_variablesIn.mp hname
  obtain ⟨hdecimal, other, hother, hname⟩ := mem_used.mp hused
  rw [List.mem_singleton.mp hother, hcommand] at hname
  cases hname
  exact h hdecimal (fixedAddress?_eq_none_iff.mpr hfree)

/-- A statement that uses no symbol leaves the variables as they are. -/
theorem variablesIn_append_singleton_of_not_address (statements earlier : List Statement)
    {statement : Statement} (h : ∀ symbol, statement.command ≠ .address symbol) :
    variablesIn statements (earlier ++ [statement]) = variablesIn statements earlier := by
  apply variablesIn_append_singleton_of_known
  intro name hname
  obtain ⟨-, other, hother, hcommand⟩ := mem_used.mp (mem_variablesIn.mp hname).1
  rw [List.mem_singleton.mp hother] at hcommand
  exact absurd hcommand (h name)

/-- A new variable comes last. -/
theorem variablesIn_append_singleton_of_fresh {statements earlier : List Statement}
    {statement : Statement} {name : String} (hcommand : statement.command = .address name)
    (hdecimal : Text.isDecimal name = false) (hfixed : fixedAddress? statements name = none)
    (hfresh : name ∉ variablesIn statements earlier) :
    variablesIn statements (earlier ++ [statement]) =
      variablesIn statements earlier ++ [name] := by
  obtain ⟨hdeclared, hreserved⟩ := fixedAddress?_eq_none_iff.mp hfixed
  have huse : variableUses statements [statement] = [name] := by
    simp [variableUses, used, hcommand, hdecimal, hdeclared, hreserved]
  have hnew : [name].removeAll (variableUses statements earlier) = [name] := by
    rw [variablesIn, List.mem_eraseDups] at hfresh
    simp [List.removeAll, hfresh]
  rw [variablesIn_append, huse, hnew]
  rfl

/-- The place of a variable is settled by its first use. -/
theorem idxOf_variableNames {statements earlier later : List Statement} {name : String}
    (hstatements : statements = earlier ++ later) (h : name ∈ variablesIn statements earlier) :
    (variableNames statements).idxOf name = (variablesIn statements earlier).idxOf name := by
  have hsplit := variablesIn_append statements earlier later
  rw [← hstatements] at hsplit
  rw [variableNames_eq, hsplit, List.idxOf_append, if_pos h]

/-- The place of a variable is the number of variables that are used before its first use. -/
theorem idxOf_variableNames_of_fresh {statements earlier later : List Statement}
    {statement : Statement} {name : String} (hstatements : statements = earlier ++ statement :: later)
    (hcommand : statement.command = .address name) (hdecimal : Text.isDecimal name = false)
    (hfixed : fixedAddress? statements name = none)
    (hfresh : name ∉ variablesIn statements earlier) :
    (variableNames statements).idxOf name = (variablesIn statements earlier).length := by
  have hnew := variablesIn_append_singleton_of_fresh hcommand hdecimal hfixed hfresh
  -- The variable is the last of those that are used up to its first use.
  have hsplit : statements = (earlier ++ [statement]) ++ later := by
    rw [hstatements]; simp
  rw [idxOf_variableNames hsplit (by rw [hnew]; simp), hnew, List.idxOf_append, if_neg hfresh]
  simp

/-! ## Values -/

/-- Every declaration has an address. -/
def LabelsFit (statements : List Statement) : Prop :=
  ∀ name count, declaration? name statements = some count → count < 65536

theorem value_of_isDecimal (statements : List Statement) {symbol : String}
    (h : Text.isDecimal symbol = true) :
    value statements symbol = Text.decimalValue symbol.toList := by
  rw [value, if_pos h]

/-- A number has the same value in all programs. -/
theorem value_eq_of_isDecimal (statements others : List Statement) {symbol : String}
    (h : Text.isDecimal symbol = true) : value others symbol = value statements symbol := by
  rw [value_of_isDecimal others h, value_of_isDecimal statements h]

theorem value_of_fixedAddress? {statements : List Statement} {name : String} {address : Address}
    (hfit : LabelsFit statements) (hdecimal : Text.isDecimal name = false)
    (h : fixedAddress? statements name = some address) :
    value statements name = address.toNat := by
  rw [fixedAddress?] at h
  rw [value, if_neg (by simp [hdecimal])]
  cases hdeclaration : declaration? name statements with
  | some count =>
    rw [hdeclaration] at h
    obtain rfl := Option.some.inj h
    exact (Nat.mod_eq_of_lt (hfit name count hdeclaration)).symm
  | none =>
    rw [hdeclaration] at h
    simp only at h ⊢
    rw [h]

theorem value_of_variable {statements : List Statement} {name : String}
    (hdecimal : Text.isDecimal name = false) (h : fixedAddress? statements name = none) :
    value statements name = variableBase + (variableNames statements).idxOf name := by
  rw [fixedAddress?] at h
  rw [value, if_neg (by simp [hdecimal])]
  cases hdeclaration : declaration? name statements with
  | some count =>
    rw [hdeclaration] at h
    cases h
  | none =>
    rw [hdeclaration] at h
    simp only at h ⊢
    rw [h]

/-- A variable has the address of its place among the variables. -/
theorem value_of_getElem? {statements : List Statement} {index : Nat} {name : String}
    (h : (variableNames statements)[index]? = some name) :
    value statements name = variableBase + index := by
  have hnodup : (variableNames statements).Nodup := nodup_eraseDups _
  obtain ⟨hindex, rfl⟩ := List.getElem?_eq_some_iff.mp h
  obtain ⟨hused, hfree⟩ := mem_variablesIn.mp (List.getElem_mem hindex)
  rw [value_of_variable (mem_used.mp hused).1 (fixedAddress?_eq_none_iff.mpr hfree),
    hnodup.idxOf_getElem index hindex]

/-- A variable has the address behind those of the variables that are used before its first use. -/
theorem value_of_first_use {statements earlier later : List Statement} {statement : Statement}
    {name : String} (hstatements : statements = earlier ++ statement :: later)
    (hcommand : statement.command = .address name) (hdecimal : Text.isDecimal name = false)
    (hfixed : fixedAddress? statements name = none)
    (hfresh : name ∉ variablesIn statements earlier) :
    value statements name = variableBase + (variablesIn statements earlier).length := by
  rw [value_of_variable hdecimal hfixed,
    idxOf_variableNames_of_fresh hstatements hcommand hdecimal hfixed hfresh]

/-- Symbols of two programs have the same value if they have the same place among the labels, the
    reserved symbols and the variables. -/
theorem value_congr {statements others : List Statement} {symbol other : String}
    (hdecimal : Text.isDecimal symbol = false) (hdecimal' : Text.isDecimal other = false)
    (hdeclaration : declaration? other others = declaration? symbol statements)
    (hreserved : reservedSymbols.lookup other = reservedSymbols.lookup symbol)
    (hvariable : fixedAddress? statements symbol = none →
      (variableNames others).idxOf other = (variableNames statements).idxOf symbol) :
    value others other = value statements symbol := by
  rw [value, value, if_neg (by simp [hdecimal']), if_neg (by simp [hdecimal]), hdeclaration,
    hreserved]
  rw [fixedAddress?] at hvariable
  cases hlabel : declaration? symbol statements with
  | some count => rfl
  | none =>
    rw [hlabel] at hvariable
    cases hlookup : reservedSymbols.lookup symbol with
    | some address => rfl
    | none => exact congrArg (variableBase + ·) (hvariable hlookup)

end Statement

end HackAssembler
