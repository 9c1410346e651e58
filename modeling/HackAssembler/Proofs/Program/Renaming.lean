/-
  HackAssembler.Proofs.Program.Renaming

  The spelling of names has no influence on a program. Names may be changed into others as long as
  different names stay different and the names of the machine stay what they are
  (`Statement.IsRenaming`). All that is said of the symbols of a program then holds of the new names:
  where they are declared, which of them are variables, and their values. The two sources are
  therefore assembled to the same words or rejected with the same error.
-/
import HackAssembler.Proofs.Program.Reprinting
import HackAssembler.Proofs.Program.Words

namespace HackAssembler

/-! ## Programs with other names -/

/-- The command with other names. Numbers and mnemonics stay as they are. -/
def Command.rename (f : String → String) : Command → Command
  | .address symbol => .address (if Text.isDecimal symbol then symbol else f symbol)
  | .compute dest comp jump => .compute dest comp jump
  | .label name => .label (f name)

namespace Statement

/-- The statement on another line and with other names. -/
def rename (place : Nat → Nat) (f : String → String) (statement : Statement) : Statement :=
  ⟨place statement.line, statement.command.rename f⟩

/-- The names of a program: the symbols that are used and the labels. -/
def names (statements : List Statement) : List String :=
  used statements ++ declared statements

/-- A name that is reserved or occurs in a program. -/
def IsKnown (statements : List Statement) (name : String) : Prop :=
  isReserved name = true ∨ name ∈ names statements

/-- New names for those of a program. They are identifiers, different names stay different, and the
    reserved names are kept apart from the others. -/
structure IsRenaming (f : String → String) (statements : List Statement) : Prop where
  identifier : ∀ name ∈ names statements, (Token.identifier (f name)).IsLexeme
  injective : ∀ name ∈ names statements, ∀ other ∈ names statements, f name = f other → name = other
  reserved : ∀ name, isReserved name = true → f name = name
  free : ∀ name ∈ names statements, isReserved name = false → isReserved (f name) = false

variable {place : Nat → Nat} {f : String → String} {statements : List Statement} {name : String}

theorem isKnown_of_mem_used (h : name ∈ used statements) : IsKnown statements name :=
  .inr (List.mem_append_left _ h)

theorem isKnown_of_mem_declared (h : name ∈ declared statements) : IsKnown statements name :=
  .inr (List.mem_append_right _ h)

theorem isKnown_of_mem_variableNames (h : name ∈ variableNames statements) :
    IsKnown statements name :=
  isKnown_of_mem_used (mem_variablesIn.mp h).1

namespace IsRenaming

variable (hf : IsRenaming f statements)
include hf

theorem isReserved_apply (hname : IsKnown statements name) :
    isReserved (f name) = isReserved name := by
  cases hreserved : isReserved name with
  | true => rw [hf.reserved name hreserved, hreserved]
  | false =>
    rcases hname with hname | hname
    · rw [hname] at hreserved
      cases hreserved
    · exact hf.free name hname hreserved

/-- Names stay different, and different from the reserved ones. -/
theorem eq_of_apply_eq {other : String} (hname : IsKnown statements name)
    (hother : IsKnown statements other) (h : f name = f other) : name = other := by
  have hsame : isReserved name = isReserved other := by
    rw [← hf.isReserved_apply hname, ← hf.isReserved_apply hother, h]
  -- Reserved names are their own new names, and the others are different by assumption.
  cases hreserved : isReserved other with
  | true =>
    rw [← hf.reserved name (hsame.trans hreserved), ← hf.reserved other hreserved, h]
  | false =>
    have hmem {name : String} (hname : IsKnown statements name)
        (hfree : isReserved name = false) : name ∈ names statements :=
      hname.resolve_left (by simp [hfree])
    exact hf.injective name (hmem hname (hsame.trans hreserved)) other (hmem hother hreserved) h

theorem apply_mem_map_iff {items : List String} (hitems : ∀ item ∈ items, IsKnown statements item)
    (hname : IsKnown statements name) : f name ∈ items.map f ↔ name ∈ items := by
  constructor
  · intro h
    obtain ⟨item, hitem, heq⟩ := List.mem_map.mp h
    obtain rfl := hf.eq_of_apply_eq (hitems item hitem) hname heq
    exact hitem
  · exact List.mem_map_of_mem

theorem isDecimal_apply (hname : IsKnown statements name) : Text.isDecimal (f name) = false := by
  rcases hname with hreserved | hname
  · rw [hf.reserved name hreserved]
    exact Program.isDecimal_of_isReserved hreserved
  · exact (hf.identifier name hname).isDecimal

theorem lookup_apply (hname : IsKnown statements name) :
    reservedSymbols.lookup (f name) = reservedSymbols.lookup name := by
  cases hreserved : isReserved name with
  | true => rw [hf.reserved name hreserved]
  | false =>
    have hnew := hf.isReserved_apply hname
    rw [hreserved] at hnew
    rw [isReserved_eq_isSome, Option.isSome_eq_false_iff, Option.isNone_iff_eq_none] at hreserved hnew
    rw [hreserved, hnew]

end IsRenaming

/-! ## Meaning of the new names -/

theorem isInstruction_rename (command : Command) :
    (command.rename f).isInstruction = command.isInstruction := by
  cases command <;> rfl

theorem instructions_rename (statements : List Statement) :
    instructions (statements.map (rename place f)) =
      (instructions statements).map (rename place f) := by
  rw [instructions, instructions, List.filter_map]
  congr 1
  apply List.filter_congr
  intro statement _
  exact isInstruction_rename statement.command

theorem declared_rename (statements : List Statement) :
    declared (statements.map (rename place f)) = (declared statements).map f := by
  rw [declared, declared, List.filterMap_map, List.map_filterMap]
  apply List.filterMap_congr
  rintro ⟨line, command⟩ _
  cases command <;> rfl

theorem declaration?_rename (hinj : ∀ other ∈ declared statements, f other = f name → other = name) :
    declaration? (f name) (statements.map (rename place f)) = declaration? name statements := by
  induction statements with
  | nil => rfl
  | cons statement statements ih =>
    have hrest : ∀ other ∈ declared statements, f other = f name → other = name := by
      intro other hother
      obtain ⟨label, hlabel, hcommand⟩ := mem_declared.mp hother
      exact hinj other (mem_declared.mpr ⟨label, List.mem_cons_of_mem _ hlabel, hcommand⟩)
    have hlabel : (statement.command.rename f = .label (f name)) ↔
        statement.command = .label name := by
      constructor
      · intro h
        cases hcommand : statement.command with
        | label other =>
          rw [hcommand] at h
          have hother : other ∈ declared (statement :: statements) :=
            mem_declared.mpr ⟨statement, by simp, hcommand⟩
          rw [hinj other hother (Command.label.inj h)]
        | _ =>
          rw [hcommand] at h
          cases h
      · intro h
        rw [h]
        rfl
    rw [List.map_cons, declaration?, declaration?, ih hrest]
    simp only [rename, isInstruction_rename, hlabel]

namespace IsRenaming

variable (hf : IsRenaming f statements)
include hf

theorem used_rename : used (statements.map (rename place f)) = (used statements).map f := by
  rw [used, used, List.filterMap_map, List.map_filterMap]
  apply List.filterMap_congr
  rintro ⟨line, command⟩ hmem
  cases command with
  | address symbol =>
    cases hdecimal : Text.isDecimal symbol with
    | true => simp [rename, Command.rename, hdecimal]
    | false =>
      have hused : symbol ∈ used statements := mem_used.mpr ⟨hdecimal, _, hmem, rfl⟩
      simp [rename, Command.rename, hdecimal, hf.isDecimal_apply (isKnown_of_mem_used hused)]
  | _ => rfl

/-- The variables of the new names are the new names of the variables. -/
theorem variableNames_rename :
    variableNames (statements.map (rename place f)) = (variableNames statements).map f := by
  have hknown : ∀ item ∈ used statements, IsKnown statements item :=
    fun _ => isKnown_of_mem_used
  rw [variableNames, variableNames, hf.used_rename, declared_rename, List.filter_map,
    ← eraseDups_map]
  · congr 2
    apply List.filter_congr
    intro name hname
    have hdeclared := hf.apply_mem_map_iff (fun _ => isKnown_of_mem_declared) (hknown name hname)
    simp only [Function.comp_apply, hf.isReserved_apply (hknown name hname)]
    congr 2
    rw [Bool.eq_iff_iff, List.contains_iff_mem, List.contains_iff_mem, hdeclared]
  · intro name hname other hother
    exact hf.eq_of_apply_eq (hknown name (List.mem_of_mem_filter hname))
      (hknown other (List.mem_of_mem_filter hother))

/-- A name has the value that it had before under its new name. -/
theorem value_rename (hname : IsKnown statements name) (hdecimal : Text.isDecimal name = false) :
    value (statements.map (rename place f)) (f name) = value statements name := by
  apply value_congr hdecimal (hf.isDecimal_apply hname)
  · apply declaration?_rename
    intro other hother
    exact hf.eq_of_apply_eq (isKnown_of_mem_declared hother) hname
  · exact hf.lookup_apply hname
  · intro _
    rw [hf.variableNames_rename]
    apply idxOf_map
    intro other hother
    exact hf.eq_of_apply_eq (isKnown_of_mem_variableNames hother) hname

/-- A command matches the one with the new names. -/
theorem matches_rename {statement : Statement} (hmem : statement ∈ statements) :
    Matches statements (statements.map (rename place f)) statement.command
      (statement.command.rename f) := by
  cases hcommand : statement.command with
  | label name => exact .label name (f name)
  | compute dest comp jump => exact .compute dest comp jump
  | address symbol =>
    cases hdecimal : Text.isDecimal symbol with
    | true =>
      have hvalue := value_eq_of_isDecimal statements (statements.map (rename place f)) hdecimal
      rw [Command.rename, if_pos hdecimal]
      exact .load hvalue (by rw [valueText, valueText, hvalue])
    | false =>
      have hknown : IsKnown statements symbol :=
        isKnown_of_mem_used (mem_used.mpr ⟨hdecimal, _, hmem, hcommand⟩)
      have hdecimal' := hf.isDecimal_apply hknown
      have hvalue : value (statements.map (rename place f)) (f symbol) = value statements symbol :=
        hf.value_rename hknown hdecimal
      rw [Command.rename, if_neg (by simp [hdecimal])]
      refine .load hvalue ?_
      simp [valueText, hvalue, hdecimal, hdecimal']

end IsRenaming

/-- Statements on the same number of lines, with the new names. -/
theorem eq_map_rename {statements others : List Statement}
    (hcommands : others.map Statement.command =
      statements.map fun statement => statement.command.rename f)
    (hlines : others.map Statement.line = statements.map fun statement => place statement.line) :
    others = statements.map (rename place f) := by
  induction statements generalizing others with
  | nil => exact List.map_eq_nil_iff.mp hcommands
  | cons statement statements ih =>
    cases others with
    | nil => cases hcommands
    | cons other others =>
      rw [List.map_cons, List.map_cons, List.cons.injEq] at hcommands hlines
      have hfirst : other = statement.rename place f := by
        rw [rename, ← hcommands.1, ← hlines.1]
      rw [List.map_cons, ih hcommands.2 hlines.2, hfirst]

end Statement

open Statement (IsKnown IsRenaming declared variableNames)

/-- The word of a command on another line and with other names. -/
def Word.rename (place : Nat → Nat) (f : String → String) (word : Word) : Word :=
  { word with line := place word.line, command := word.command.rename f }

/-- A program and the one with the new names have the same bits and the same output file, and the
    new names have the addresses of the old ones; or both are rejected with the same error on the
    line of the same statement. -/
inductive Program.AgreesUnder (place : Nat → Nat) (f : String → String)
    (statements : List Statement) : Except Error Program → Except Error Program → Prop where
  | program {program other : Program}
      (words : other.words = program.words.map (Word.rename place f))
      (text : other.toText = program.toText) (size : other.symbols.size = program.symbols.size)
      (symbols : ∀ name, IsKnown statements name →
        other.symbols.get? (f name) = program.symbols.get? name) :
      AgreesUnder place f statements (.ok program) (.ok other)
  | error {error : Error} {statement : Statement} (mem : statement ∈ statements)
      (stands : error.line? = some statement.line) :
      AgreesUnder place f statements (.error error) (.error (error.renumber place))

/-! ## Tables with other names -/

/-- A table has as many names as one with other names for the same ones. -/
theorem SymbolTable.size_eq_of_rename {table other : SymbolTable} (f : String → String)
    (hinj : ∀ name next, (table.get? name).isSome = true → (table.get? next).isSome = true →
      f name = f next → name = next)
    (hnames : ∀ name, (other.get? name).isSome = true ↔
      ∃ bound, (table.get? bound).isSome = true ∧ f bound = name) : other.size = table.size := by
  have hmap : (table.bindings.keys.map f).Nodup := by
    refine List.Nodup.map_on ?_ Std.ExtTreeMap.nodup_keys
    intro name hname next hnext
    exact hinj name next (mem_keys_bindings.mp hname) (mem_keys_bindings.mp hnext)
  have hperm : other.bindings.keys.Perm (table.bindings.keys.map f) := by
    rw [List.perm_ext_iff_of_nodup Std.ExtTreeMap.nodup_keys hmap]
    intro name
    rw [mem_keys_bindings, hnames, List.mem_map]
    simp only [mem_keys_bindings]
  have hlength := hperm.length_eq
  rwa [List.length_map, Std.ExtTreeMap.length_keys, Std.ExtTreeMap.length_keys] at hlength

namespace Program

variable {place : Nat → Nat} {f : String → String} {statements : List Statement}
  {program other : Program}

theorem Means.isKnown (h : program.Means statements) {name : String}
    (hname : (program.symbols.get? name).isSome = true) : IsKnown statements name := by
  rcases (h.bound name).mp hname with hreserved | hdeclared | hvariable
  · exact .inl hreserved
  · exact Statement.isKnown_of_mem_declared hdeclared
  · exact Statement.isKnown_of_mem_variableNames hvariable

variable (hf : IsRenaming f statements)
include hf

/-- The new names that have an address are those of the names that have one. -/
theorem isSome_get?_rename (hprogram : program.Means statements)
    (hother : other.Means (statements.map (Statement.rename place f))) {name : String}
    (hname : IsKnown statements name) :
    (other.symbols.get? (f name)).isSome = true ↔ (program.symbols.get? name).isSome = true := by
  rw [hprogram.bound, hother.bound, hf.isReserved_apply hname, Statement.declared_rename,
    hf.variableNames_rename, hf.apply_mem_map_iff (fun _ => Statement.isKnown_of_mem_declared) hname,
    hf.apply_mem_map_iff (fun _ => Statement.isKnown_of_mem_variableNames) hname]

theorem get?_rename (hprogram : program.Means statements)
    (hother : other.Means (statements.map (Statement.rename place f))) {name : String}
    (hname : IsKnown statements name) (hdecimal : Text.isDecimal name = false) :
    other.symbols.get? (f name) = program.symbols.get? name := by
  have hsome := isSome_get?_rename hf hprogram hother hname
  cases hnew : other.symbols.get? (f name) with
  | none => cases hold : program.symbols.get? name with
    | none => rfl
    | some address =>
      rw [hnew, hold] at hsome
      simp at hsome
  | some address => cases hold : program.symbols.get? name with
    | none =>
      rw [hnew, hold] at hsome
      simp at hsome
    | some bound =>
      have hsame : address = bound := by
        apply BitVec.eq_of_toNat_eq
        rw [hother.address _ _ hnew, hprogram.address _ _ hold,
          hf.value_rename hname hdecimal]
      rw [hsame]

theorem size_rename (hprogram : program.Means statements)
    (hother : other.Means (statements.map (Statement.rename place f))) :
    other.symbols.size = program.symbols.size := by
  refine SymbolTable.size_eq_of_rename f ?_ fun name => ?_
  · intro name next hname hnext
    exact hf.eq_of_apply_eq (hprogram.isKnown hname) (hprogram.isKnown hnext)
  · constructor
    · intro hname
      -- A reserved name is its own new name; a label or a variable has another one.
      have hknown : ∃ old, IsKnown statements old ∧ f old = name := by
        rcases (hother.bound name).mp hname with hreserved | hdeclared | hvariable
        · exact ⟨name, .inl hreserved, hf.reserved name hreserved⟩
        · rw [Statement.declared_rename] at hdeclared
          obtain ⟨old, hold, heq⟩ := List.mem_map.mp hdeclared
          exact ⟨old, Statement.isKnown_of_mem_declared hold, heq⟩
        · rw [hf.variableNames_rename] at hvariable
          obtain ⟨old, hold, heq⟩ := List.mem_map.mp hvariable
          exact ⟨old, Statement.isKnown_of_mem_variableNames hold, heq⟩
      obtain ⟨old, hold, rfl⟩ := hknown
      exact ⟨old, (isSome_get?_rename hf hprogram hother hold).mp hname, rfl⟩
    · rintro ⟨old, hold, rfl⟩
      exact (isSome_get?_rename hf hprogram hother (hprogram.isKnown hold)).mpr hold

/-- The words of the new names are the words of the old ones. -/
theorem words_rename (hprogram : program.Means statements)
    (hother : other.Means (statements.map (Statement.rename place f))) :
    other.words = program.words.map (Word.rename place f) := by
  have hinstructions : List.Forall₂ (fun statement other =>
        other = statement.rename place f ∧ Statement.Matches statements
          (statements.map (Statement.rename place f)) statement.command other.command)
      (Statement.instructions statements)
      (Statement.instructions (statements.map (Statement.rename place f))) := by
    rw [Statement.instructions_rename, List.forall₂_map_right_iff, List.forall₂_same]
    intro statement hstatement
    exact ⟨rfl, hf.matches_rename (List.mem_of_mem_filter hstatement)⟩
  have hwords : List.Forall₂ (fun word next => next = Word.rename place f word) program.words
      other.words := by
    refine Word.forall₂_of_belongsTo ?_ hinstructions hprogram.words hother.words
    rintro statement copy index word next ⟨rfl, hmatch⟩ hword hnext
    have hbits := hword.bits_eq hnext hmatch
    have haddress : next.address = word.address := hnext.address.trans hword.address.symm
    have hline : next.line = place word.line := by
      rw [hnext.line, hword.line]
      rfl
    have hcommand : next.command = word.command.rename f := by
      rw [hnext.command, hword.command]
      rfl
    cases next
    simp_all [Word.rename]
  symm
  rw [← List.forall₂_eq_eq_eq, List.forall₂_map_left_iff]
  exact hwords.imp fun _ _ h => h.symm

omit hf

/-- No name of a program is a number. -/
theorem isDecimal_of_isKnown {lines : List Line} (hreads : List.Forall₂ Line.Reads lines statements)
    (hlexeme : ∀ line ∈ lines, ∀ token ∈ line.tokens, token.IsLexeme) {name : String}
    (h : IsKnown statements name) : Text.isDecimal name = false := by
  rcases h with hreserved | hname
  · exact isDecimal_of_isReserved hreserved
  rcases List.mem_append.mp hname with hused | hdeclared
  · exact (Statement.mem_used.mp hused).1
  · exact isDecimal_of_mem_declared hreads hlexeme hdeclared

/-- Lines of the same commands up to their names match. -/
theorem forall₂_matches_rename (hf : IsRenaming f statements) {lines others : List Line}
    (hreads : List.Forall₂ Line.Reads lines statements)
    (hothers : List.Forall₂ Line.Reads others (statements.map (Statement.rename place f))) :
    List.Forall₂ (Line.Matches statements (statements.map (Statement.rename place f)) place) lines
      others := by
  have hmatches : List.Forall₂ (fun statement (copy : Statement) =>
        copy.line = place statement.line ∧ Statement.Matches statements
          (statements.map (Statement.rename place f)) statement.command copy.command)
      statements (statements.map (Statement.rename place f)) := by
    rw [List.forall₂_map_right_iff, List.forall₂_same]
    intro statement hstatement
    exact ⟨rfl, hf.matches_rename hstatement⟩
  refine (forall₂_comp hreads (forall₂_comp hmatches hothers.flip)).imp ?_
  rintro line other ⟨statement, hline, copy, ⟨hplace, hmatch⟩, hother⟩
  exact ⟨by rw [← hother.1, hplace, hline.1], _, _, hline.2, hother.2, hmatch⟩

/-! ## Main result -/

/-- The spelling of names has no influence on a program. A source with the same commands up to a
    renaming of its symbols and labels is assembled to the same bits, and each name has the address
    that its new name has in the other; or both sources are rejected with the same error, on the
    lines of the same statement. -/
theorem assemble_renamed {source other : String} {statements others : List Statement}
    {f : String → String} (hstatements : Statement.ofLines (Line.ofSource source) = .ok statements)
    (hothers : Statement.ofLines (Line.ofSource other) = .ok others)
    (hcommands : others.map Statement.command =
      statements.map fun statement => statement.command.rename f)
    (hf : IsRenaming f statements) :
    ∃ place : Nat → Nat, others = statements.map (Statement.rename place f) ∧
      AgreesUnder place f statements (assemble source).result (assemble other).result := by
  have hreads := Statement.reads_of_ofLines (tokens_ne_nil_of_mem source) hstatements
  have hreads' := Statement.reads_of_ofLines (tokens_ne_nil_of_mem other) hothers
  have hlength : (Line.ofSource source).length = (others.map Statement.line).length := by
    have hsame := congrArg List.length hcommands
    rw [List.length_map, List.length_map] at hsame
    rw [hreads.length_eq, List.length_map, hsame]
  obtain ⟨place, hplace⟩ := Line.exists_place source hlength
  obtain rfl : others = statements.map (Statement.rename place f) :=
    Statement.eq_map_rename hcommands
      (hplace.symm.trans (Line.map_line_of_reads hreads place).symm)
  refine ⟨place, rfl, ?_⟩
  have hmatches := forall₂_matches_rename hf hreads hreads'
  cases hresult : (assemble source).result with
  | error error =>
    obtain ⟨line, hline⟩ := rejection_of_assemble hresult
    obtain ⟨copy, hcopy⟩ := rejection_of_matches hmatches hreads hreads' hline
    rw [assemble_of_rejection hcopy]
    obtain ⟨statement, hstatement, hreads⟩ := exists_of_forall₂_of_mem hreads.flip hline.mem
    have hstatement' : statement.line = line.number := hreads.1
    exact .error hstatement (hline.line?.trans (by rw [hstatement']))
  | ok program =>
    obtain ⟨found, haccept, hmeans⟩ := acceptance_of_assemble hresult
    obtain rfl := Statement.eq_of_reads haccept.reads hreads
    obtain ⟨copy, hcopy, hmeans'⟩ :=
      assemble_of_acceptance (acceptance_of_matches hmatches hreads' haccept)
    rw [hcopy]
    have hwords := words_rename hf hmeans hmeans'
    refine .program hwords ?_ (size_rename hf hmeans hmeans') fun name hname => ?_
    · apply toText_eq_of_bits
      rw [hwords, List.forall₂_map_right_iff, List.forall₂_same]
      intro word _
      rfl
    · exact get?_rename hf hmeans hmeans' hname
        (isDecimal_of_isKnown hreads (isLexeme_of_mem source) hname)

/-- A loop and a variable change their names; the pointer of the stack keeps its own. -/
theorem assemble_renamed_loop :
    let source := "(loop)\n@i\n@SP\n@loop\n0;JMP"
    let other := "(i)\n\n@_n.1\n@SP\n@i\n0;JMP"
    let f := fun name => if name = "loop" then "i" else if name = "i" then "_n.1" else name
    ∃ statements, Statement.ofLines (Line.ofSource source) = .ok statements ∧
      ∃ place : Nat → Nat, AgreesUnder place f statements (assemble source).result
        (assemble other).result := by
  intro source other f
  let statements : List Statement := [⟨1, .label "loop"⟩, ⟨2, .address "i"⟩, ⟨3, .address "SP"⟩,
    ⟨4, .address "loop"⟩, ⟨5, .compute none "0" (some "JMP")⟩]
  let others : List Statement := [⟨1, .label "i"⟩, ⟨3, .address "_n.1"⟩, ⟨4, .address "SP"⟩,
    ⟨5, .address "i"⟩, ⟨6, .compute none "0" (some "JMP")⟩]
  have hstatements : Statement.ofLines (Line.ofSource source) = .ok statements := by
    decide +kernel
  have hothers : Statement.ofLines (Line.ofSource other) = .ok others := by
    decide +kernel
  have hnames : Statement.names statements = ["i", "SP", "loop", "loop"] := by decide +kernel
  have hloop : f "loop" = "i" := if_pos rfl
  have hi : f "i" = "_n.1" := (if_neg (by decide)).trans (if_pos rfl)
  have hsp : f "SP" = "SP" := (if_neg (by decide)).trans (if_neg (by decide))
  have hf : IsRenaming f statements := by
    refine ⟨?_, by rw [hnames]; decide +kernel, ?_, by rw [hnames]; decide +kernel⟩
    · rw [hnames, List.forall_mem_cons, List.forall_mem_cons, List.forall_mem_cons,
        List.forall_mem_singleton, hi, hsp, hloop]
      have hlexeme (name : String) (hname : .identifier name ∈ Token.scan name.toList) :
          (Token.identifier name).IsLexeme := Token.isLexeme_of_mem_scan _ hname
      exact ⟨hlexeme _ (by decide +kernel), hlexeme _ (by decide +kernel),
        hlexeme _ (by decide +kernel), hlexeme _ (by decide +kernel)⟩
    · intro name hname
      have hloop : name ≠ "loop" := by
        rintro rfl
        exact absurd hname (by decide)
      have hi : name ≠ "i" := by
        rintro rfl
        exact absurd hname (by decide)
      simp only [f, if_neg hloop, if_neg hi]
  obtain ⟨place, -, hagrees⟩ := assemble_renamed hstatements hothers (by decide +kernel) hf
  exact ⟨statements, hstatements, place, hagrees⟩

end Program

end HackAssembler
