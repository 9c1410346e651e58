/-
  HackAssembler.Proofs.Program.Variables

  Where the variables of a program are. They have the addresses from 16 on, one behind the other in
  the order of their first use, and nothing is left out: a program with enough variables has one at
  the address of the screen and another at that of the keyboard. The registers are never among
  them.
-/
import HackAssembler.Proofs.Program.Bounds
import HackAssembler.Proofs.Text.Decimal

namespace HackAssembler.Program

open Statement (declared variableNames value)

/-! ## Addresses -/

/-- A name of a program stands for a variable: it is neither reserved nor declared. -/
structure BindsVariable (program : Program) (statements : List Statement) (name : String)
    (address : Address) : Prop where
  bound : program.symbols.get? name = some address
  free : isReserved name = false
  undeclared : name ∉ declared statements

/-- The place of a variable among the others gives its address. -/
theorem BindsVariable.exists_index {program : Program} {statements : List Statement}
    {name : String} {address : Address} (h : program.BindsVariable statements name address)
    (hmeans : Means statements program) :
    ∃ index, (variableNames statements)[index]? = some name ∧
      address.toNat = variableBase + index := by
  -- A name with an address is reserved, a label or a variable.
  rcases (hmeans.bound name).mp (by rw [h.bound]; rfl) with hreserved | hdeclared | hvariable
  · rw [h.free] at hreserved
    cases hreserved
  · exact absurd hdeclared h.undeclared
  · obtain ⟨index, hindex⟩ := List.getElem?_of_mem hvariable
    exact ⟨index, hindex,
      (hmeans.address name address h.bound).trans (Statement.value_of_getElem? hindex)⟩

/-- Every variable is in the table, at the address that its place gives. -/
theorem exists_bindsVariable {program : Program} {statements : List Statement}
    (hmeans : Means statements program) {index : Nat} {name : String}
    (h : (variableNames statements)[index]? = some name) :
    ∃ address, program.BindsVariable statements name address ∧
      address.toNat = variableBase + index := by
  have hmem := List.mem_of_getElem? h
  obtain ⟨-, hundeclared, hfree⟩ := Statement.mem_variablesIn.mp hmem
  obtain ⟨address, haddress⟩ :=
    Option.isSome_iff_exists.mp ((hmeans.bound name).mpr (.inr (.inr hmem)))
  exact ⟨address, ⟨haddress, hfree, hundeclared⟩,
    (hmeans.address name address haddress).trans (Statement.value_of_getElem? h)⟩

/-- Of the reserved names only those of the screen and of the keyboard have addresses that
    variables can have. -/
theorem get?_reserved_eq_some_iff {address : Address} {index : Nat}
    (h : address.toNat = variableBase + index) (other : String) :
    SymbolTable.reserved.get? other = some address ↔
      other = "SCREEN" ∧ index = 16368 ∨ other = "KBD" ∧ index = 24560 := by
  -- Every other reserved name is that of a register, below the first variable.
  have hreserved : ∀ entry ∈ reservedSymbols, entry.2.toNat < variableBase ∨
      entry = ("SCREEN", 0x4000#16) ∨ entry = ("KBD", 0x6000#16) := by
    decide
  rw [SymbolTable.get?_reserved]
  unfold variableBase at h hreserved
  constructor
  · intro hlookup
    rcases hreserved _ (Instruction.entry_mem_of_lookup hlookup) with
      hsmall | hscreen | hkeyboard
    · simp only at hsmall
      omega
    · cases hscreen
      simp at h
      exact .inl ⟨rfl, by omega⟩
    · cases hkeyboard
      simp at h
      exact .inr ⟨rfl, by omega⟩
  · rintro (⟨rfl, rfl⟩ | ⟨rfl, rfl⟩)
    · have haddress : address = 0x4000#16 := BitVec.eq_of_toNat_eq h
      rw [haddress]
      decide
    · have haddress : address = 0x6000#16 := BitVec.eq_of_toNat_eq h
      rw [haddress]
      decide

/-! ## Programs of variables -/

/-- A program that only loads variables has each of them at its place, if there are addresses for
    all. -/
theorem AreVariables.exists_program {names : List String} (h : AreVariables names)
    (hfew : names.length ≤ 32752) :
    ∃ program, (assemble (sourceOf (names.map .address))).result = .ok program ∧
      ∀ index name, names[index]? = some name →
        ∃ address, program.BindsVariable (statementsOf (names.map .address)) name address ∧
          address.toNat = variableBase + index := by
  obtain ⟨labels, hlabels⟩ := h.exists_labels
  have hlength : (Line.ofSource (sourceOf (names.map .address))).length = names.length := by
    rw [h.reads.length_eq, statementsOf, List.length_map, List.length_zipIdx, List.length_map]
  obtain ⟨emission, hemission⟩ :=
    h.exists_emission hlabels (List.append_nil _).symm (hlength ▸ hfew)
  have hresult := result_ofLines_of_ok hlabels hemission
  obtain ⟨statements, haccept, hmeans⟩ := acceptance_of_assemble hresult
  obtain rfl := Statement.eq_of_reads haccept.reads h.reads
  refine ⟨_, hresult, fun index name hname => ?_⟩
  rw [← h.variableNames_eq] at hname
  exact exists_bindsVariable hmeans hname

/-- The names `v0`, `v1`, `v2` and so on. -/
def numberedNames (count : Nat) : List String :=
  (List.range count).map fun index => "v" ++ toString index

theorem areVariables_numberedNames (count : Nat) : AreVariables (numberedNames count) where
  nodup := by
    -- The digits of a name give its number back.
    refine List.Nodup.map ?_ List.nodup_range
    intro index other heq
    rw [← Text.decimalValue_toString index, (String.append_right_inj "v").mp heq,
      Text.decimalValue_toString]
  identifier := by
    intro name hname
    obtain ⟨index, -, rfl⟩ := List.mem_map.mp hname
    exact ⟨'v', (toString index).toList, String.toList_append, by decide,
      fun c hc => isIdentifierChar_of_isDigit (Text.isDigit_of_mem_toString c hc)⟩
  free := by
    intro name hname
    obtain ⟨index, -, rfl⟩ := List.mem_map.mp hname
    have hother : ∀ entry ∈ reservedSymbols, 'v' ∉ entry.1.toList := by decide
    rw [isReserved, List.any_eq_false]
    intro entry hentry heq
    apply hother entry hentry
    rw [eq_of_beq heq]
    simp

/-! ## Main result -/

/-- The variables of an assembled program have the addresses from 16 on, in the order of their
    first use, and each of them has one. So none is at the address of a register. The 16369th is at
    the address of the screen and the 24561st at that of the keyboard, and no other is at a
    reserved address; with 16368 variables or fewer there is none that is. -/
theorem assemble_variables {source : String} {program : Program}
    (h : (assemble source).result = .ok program) :
    ∃ statements, Statement.ofLines (Line.ofSource source) = .ok statements ∧
      (∀ name address, program.BindsVariable statements name address →
        ∃ index, (variableNames statements)[index]? = some name ∧ address.toNat = 16 + index ∧
          ∀ other, SymbolTable.reserved.get? other = some address ↔
            other = "SCREEN" ∧ index = 16368 ∨ other = "KBD" ∧ index = 24560) ∧
      (∀ index name, (variableNames statements)[index]? = some name →
        ∃ address, program.BindsVariable statements name address ∧ address.toNat = 16 + index) ∧
      ((variableNames statements).length ≤ 16368 →
        ∀ name address, program.BindsVariable statements name address →
          ∀ other, SymbolTable.reserved.get? other ≠ some address) := by
  obtain ⟨statements, haccept, hmeans⟩ := acceptance_of_assemble h
  refine ⟨statements, Statement.ofLines_eq_ok_of_reads haccept.reads, ?_,
    fun index name => exists_bindsVariable hmeans, ?_⟩
  · intro name address hvariable
    obtain ⟨index, hindex, haddress⟩ := hvariable.exists_index hmeans
    exact ⟨index, hindex, haddress, get?_reserved_eq_some_iff haddress⟩
  · intro hfew name address hvariable other hreserved
    obtain ⟨index, hindex, haddress⟩ := hvariable.exists_index hmeans
    obtain ⟨hlt, -⟩ := List.getElem?_eq_some_iff.mp hindex
    rcases (get?_reserved_eq_some_iff haddress other).mp hreserved with ⟨-, hplace⟩ | ⟨-, hplace⟩
    · omega
    · omega

/-- A program with a single variable, which is at no reserved address. -/
theorem assemble_variables_copy :
    ∃ program statements, (assemble "@R1\nD=M\n@copy\nM=D\n").result = .ok program ∧
      Statement.ofLines (Line.ofSource "@R1\nD=M\n@copy\nM=D\n") = .ok statements ∧
      variableNames statements = ["copy"] ∧
      ∀ name address, program.BindsVariable statements name address →
        ∀ other, SymbolTable.reserved.get? other ≠ some address := by
  have hfine : (assemble "@R1\nD=M\n@copy\nM=D\n").result.isOk = true := by
    decide +kernel
  obtain ⟨program, hresult⟩ := exists_eq_ok_of_isOk hfine
  obtain ⟨statements, hstatements, -, -, hfew⟩ := assemble_variables hresult
  have hnames : (Statement.ofLines (Line.ofSource "@R1\nD=M\n@copy\nM=D\n")).map
      variableNames = .ok ["copy"] := by
    decide +kernel
  rw [hstatements] at hnames
  have hcopy : variableNames statements = ["copy"] := Except.ok.inj hnames
  exact ⟨program, statements, hresult, hstatements, hcopy, hfew (by rw [hcopy]; decide)⟩

/-- With 16369 variables the last one is at the address of the screen. -/
theorem exists_variable_at_screen :
    ∃ program statements address,
      (assemble (sourceOf ((numberedNames 16369).map .address))).result = .ok program ∧
      Statement.ofLines (Line.ofSource (sourceOf ((numberedNames 16369).map .address))) =
        .ok statements ∧
      program.BindsVariable statements "v16368" address ∧
      SymbolTable.reserved.get? "SCREEN" = some address := by
  have hlast : (numberedNames 16369)[16368]? = some "v16368" := by
    rw [numberedNames, List.getElem?_map, List.getElem?_range (by decide)]
    rfl
  have hnames := areVariables_numberedNames 16369
  have hcount : (numberedNames 16369).length ≤ 32752 := by
    rw [numberedNames, List.length_map, List.length_range]
    decide
  obtain ⟨program, hresult, hplaces⟩ := hnames.exists_program hcount
  obtain ⟨address, hvariable, haddress⟩ := hplaces 16368 "v16368" hlast
  exact ⟨program, _, address, hresult, Statement.ofLines_eq_ok_of_reads hnames.reads, hvariable,
    (get?_reserved_eq_some_iff haddress "SCREEN").mpr (.inl ⟨rfl, rfl⟩)⟩

end HackAssembler.Program
