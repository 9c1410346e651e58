/-
  HackAssembler.Proofs.Program.Labels

  What collecting labels comes to. The invariant `Labels.Collects` ties the counter and the table
  to the statements behind: the counter is the number of their instructions, and the table holds
  what `Statement.fixedAddress?` says of them. One line keeps it or is at fault
  (`Labels.tracks`); `Labels.ofLines_of_faultless` and `Labels.ofLines_of_firstFault` are the two
  ends of the walk.
-/
import HackAssembler.Program.Labels
import HackAssembler.Proofs.Binary
import HackAssembler.Proofs.Program.Fault
import HackAssembler.Proofs.Report
import HackAssembler.Proofs.SymbolTable

namespace HackAssembler

namespace Labels

open Statement (fixedAddress? declaration? LabelsFit)

/-- The labels of the statements behind. -/
structure Collects (statements : List Statement) (labels : Labels) : Prop where
  instructions : labels.instructions = (Statement.instructions statements).length
  symbols : ∀ name, labels.symbols.get? name = fixedAddress? statements name
  fit : LabelsFit statements

theorem collects_start : Collects [] start where
  instructions := rfl
  symbols name := SymbolTable.get?_reserved name
  fit name count h := by cases h

/-! ## One statement -/

/-- An instruction declares nothing. -/
theorem declaration?_singleton_of_instruction {statement : Statement}
    (h : statement.command.isInstruction = true) (name : String) :
    declaration? name [statement] = none := by
  have hne : statement.command ≠ .label name := by
    intro hlabel
    rw [hlabel] at h
    cases h
  simp [declaration?, hne]

/-- A label is declared in front of all instructions that follow it. -/
theorem declaration?_singleton_of_label {statement : Statement} {label : String}
    (h : statement.command = .label label) (name : String) :
    declaration? name [statement] = if label = name then some 0 else none := by
  by_cases hname : label = name
  · simp [declaration?, h, hname]
  · simp [declaration?, h, hname]

theorem fixedAddress?_append_singleton_of_instruction {statements : List Statement}
    {statement : Statement} (h : statement.command.isInstruction = true) (name : String) :
    fixedAddress? (statements ++ [statement]) name = fixedAddress? statements name := by
  rw [fixedAddress?, fixedAddress?, Statement.declaration?_append,
    declaration?_singleton_of_instruction h]

theorem fixedAddress?_append_singleton_of_label {statements : List Statement}
    {statement : Statement} {label : String} (h : statement.command = .label label)
    (name : String) :
    fixedAddress? (statements ++ [statement]) name =
      if label = name then some (BitVec.ofNat 16 (Statement.instructions statements).length)
      else fixedAddress? statements name := by
  rw [fixedAddress?, fixedAddress?, Statement.declaration?_append,
    declaration?_singleton_of_label h]
  by_cases hname : label = name
  · simp [hname]
  · simp [hname]

variable {statements : List Statement} {statement : Statement} {labels : Labels}

/-- An instruction counts, and has no part in the labels. -/
theorem Collects.count (hcollects : Collects statements labels)
    (hcommand : statement.command.isInstruction = true) :
    Collects (statements ++ [statement])
      { labels with instructions := labels.instructions + 1 } where
  instructions := by
    show labels.instructions + 1 = _
    rw [hcollects.instructions, Statement.instructions_append]
    simp [Statement.instructions, hcommand]
  symbols name := by
    rw [fixedAddress?_append_singleton_of_instruction hcommand]
    exact hcollects.symbols name
  fit name count h := by
    rw [Statement.declaration?_append, declaration?_singleton_of_instruction hcommand] at h
    exact hcollects.fit name count h

/-- A label is bound to the number of instructions behind. -/
theorem Collects.bind (hcollects : Collects statements labels) {label : String}
    (hcommand : statement.command = .label label)
    (hfits : (Statement.instructions statements).length < 65536) :
    Collects (statements ++ [statement])
      { labels with
        symbols := labels.symbols.insert label
          (BitVec.ofNat 16 (Statement.instructions statements).length) } where
  instructions := by
    show labels.instructions = _
    rw [hcollects.instructions, Statement.instructions_append]
    simp [Statement.instructions, hcommand, Command.isInstruction]
  symbols name := by
    rw [fixedAddress?_append_singleton_of_label hcommand, SymbolTable.get?_insert,
      hcollects.symbols]
  fit name count h := by
    rw [Statement.declaration?_append, declaration?_singleton_of_label hcommand] at h
    -- The new declaration is the last one of its name.
    by_cases hname : label = name
    · rw [if_pos hname] at h
      obtain rfl := Option.some.inj h
      exact hfits
    · rw [if_neg hname] at h
      exact hcollects.fit name count h

/-! ## One line -/

theorem result_addLine {line : Line} (h : line.Reads statement) (labels : Labels) :
    (labels.addLine line).result = (labels.addCommand line.number statement.command).result := by
  have hread : line.read.result = .ok (some statement.command) := h.command?
  rw [addLine, Report.result_bind_of_ok hread]

theorem result_addLine_of_refused {line : Line} {fault : SyntaxFault} (hne : line.tokens ≠ [])
    (h : Command.ofTokens line.tokens = .error fault) (labels : Labels) :
    (labels.addLine line).result = .error (.malformed line.number fault.message) := by
  have hread : line.read.result = .error (.malformed line.number fault.message) :=
    line.command?_of_refused hne h
  rw [addLine, Report.result_bind_of_error hread]

/-- The lines behind are read, and their labels are collected. -/
def CollectsLines (before : List Line) (labels : Labels) : Prop :=
  ∃ statements, List.Forall₂ Line.Reads before statements ∧ Collects statements labels

/-- A line either keeps the invariant or is at fault. -/
theorem tracks {lines : List Line} (hne : ∀ line ∈ lines, line.tokens ≠ []) :
    Report.Tracks addLine LabelFault CollectsLines lines where
  goes {before line after labels} hlines := by
    rintro ⟨statements, hreads, hcollects⟩ hfaultless
    cases hcommand : Command.ofTokens line.tokens with
    | error fault => exact absurd (.malformed hcommand) (hfaultless _)
    | ok command =>
      have hline : line.Reads ⟨line.number, command⟩ := ⟨rfl, hcommand⟩
      have hreads' : List.Forall₂ Line.Reads (before ++ [line])
          (statements ++ [⟨line.number, command⟩]) :=
        List.rel_append hreads (.cons hline .nil)
      rw [result_addLine hline]
      cases command with
      | label name =>
        -- A label without fault has an address.
        have hfits : (Statement.instructions statements).length < 65536 := by
          rw [← Line.instructionCount_of_reads hreads]
          by_contra hlate
          exact hfaultless _ (.outOfReach hcommand (by omega))
        refine ⟨_, ?_, _, hreads', hcollects.bind rfl hfits⟩
        show (labels.bind line.number name).result = _
        rw [bind, hcollects.instructions, Binary.field?_of_lt hfits, ← hcollects.instructions]
      | address symbol => exact ⟨_, rfl, _, hreads', hcollects.count rfl⟩
      | compute dest comp jump => exact ⟨_, rfl, _, hreads', hcollects.count rfl⟩
  ends {before line after labels error} hlines := by
    rintro ⟨statements, hreads, hcollects⟩ hfault
    cases hfault with
    | malformed hrefused =>
      exact result_addLine_of_refused (hne line (by rw [hlines]; simp)) hrefused labels
    | @outOfReach name hdeclares hlate =>
      have hline : line.Reads ⟨line.number, .label name⟩ := ⟨rfl, hdeclares⟩
      rw [result_addLine hline]
      show (labels.bind line.number name).result = _
      rw [Line.instructionCount_of_reads hreads] at hlate ⊢
      rw [bind, hcollects.instructions, Binary.field?_of_le hlate]
      rfl

/-! ## All lines -/

/-- Lines without fault are all read, and their labels are collected. -/
theorem ofLines_of_faultless {lines : List Line} (hne : ∀ line ∈ lines, line.tokens ≠ [])
    (h : Faultless LabelFault lines) :
    ∃ statements labels, List.Forall₂ Line.Reads lines statements ∧
      (ofLines lines).result = .ok labels ∧ Collects statements labels := by
  obtain ⟨labels, hlabels, statements, hreads, hcollects⟩ :=
    (tracks hne).result_of_faultless ⟨[], .nil, collects_start⟩ h
  exact ⟨statements, labels, hreads, hlabels, hcollects⟩

/-- The first fault ends the collection. -/
theorem ofLines_of_firstFault {lines : List Line} (hne : ∀ line ∈ lines, line.tokens ≠ [])
    {line : Line} {error : Error} (h : FirstFault LabelFault lines line error) :
    (ofLines lines).result = .error error :=
  (tracks hne).result_of_firstFault ⟨[], .nil, collects_start⟩ h

end Labels

end HackAssembler
