/-
  HackAssembler.Proofs.Program.Account

  The log of an assembled source is its account. A walk through lines without fault tells of one
  line after the other what its step tells behind the lines before (`Report.Tracks.log_fold`); so
  it is enough to know a step, which the invariants of the two walks settle.

  The warnings of a line are its remarks in both walks, whether the line is refused or not. What
  the second walk warns about is therefore the beginning of what the first one did
  (`Program.warnings_prefix`).
-/
import HackAssembler.Program.Account
import HackAssembler.Proofs.Command.QueuedReader
import HackAssembler.Proofs.Program.Variables

namespace HackAssembler

variable {α β σ : Type}

/-! ## One line after the other -/

theorem lineByLine_append_singleton (told : List Statement → Line → Statement → List α)
    {lines : List Line} {statements : List Statement} (hlength : lines.length = statements.length)
    (line : Line) (statement : Statement) :
    lineByLine told (lines ++ [line]) (statements ++ [statement]) =
      lineByLine told lines statements ++ told statements line statement := by
  rw [lineByLine, lineByLine, List.zip_append hlength, List.zipIdx_append, List.flatMap_append]
  congr 1
  · -- What is behind an earlier line does not change.
    refine List.flatMap_congr fun ((earlier, other), index) hentry => ?_
    have hindex : index < statements.length := by
      have hlt := List.snd_lt_of_mem_zipIdx hentry
      rwa [List.length_zip, hlength, Nat.min_self, Nat.add_zero] at hlt
    simp only [List.take_append_of_le_length (Nat.le_of_lt hindex)]
  · simp [hlength]

/-- A walk through lines without fault tells of one line after the other. -/
theorem Report.Tracks.log_fold {step : σ → Line → Report σ}
    {fault : List Line → Line → Error → Prop} {inv : List Line → σ → Prop} {view : Event → β}
    {told : List Statement → Line → Statement → List β} {start : σ} {lines : List Line}
    {statements : List Statement} (h : Tracks step fault inv lines) (hstart : inv [] start)
    (hfaultless : Faultless fault lines) (hreads : List.Forall₂ Line.Reads lines statements)
    (htold : ∀ {before after line earlier later statement state},
      lines = before ++ line :: after → statements = earlier ++ statement :: later →
      List.Forall₂ Line.Reads before earlier → line.Reads statement → inv before state →
      (∀ error, ¬ fault before line error) →
        (step state line).log.map view = told earlier line statement) :
    (fold step start lines).log.map view = lineByLine told lines statements := by
  -- From the end, as the invariant speaks of the lines behind.
  induction lines using List.reverseRecOn generalizing statements with
  | nil =>
    cases hreads
    rfl
  | append_singleton lines line ih =>
    obtain ⟨hlines, hline⟩ := faultless_append_singleton.mp hfaultless
    obtain ⟨earlier, statement, later, rfl, hearlier, hstatement, hlater⟩ :=
      exists_split_of_forall₂ hreads
    cases hlater
    obtain ⟨state, hstate, hinv⟩ := h.of_append.result_of_faultless hstart hlines
    obtain ⟨final, hfinal, -⟩ := h.goes rfl hinv hline
    have hrest : (fold step start lines).log.map view = lineByLine told lines earlier :=
      ih h.of_append hlines hearlier fun hsplit hsplit' =>
        htold (by rw [hsplit, List.append_assoc, List.cons_append])
          (by rw [hsplit', List.append_assoc, List.cons_append])
    rw [fold_append, log_bind_of_ok hstate, fold_cons, log_bind_of_ok hfinal, fold_nil,
      List.map_append, hrest, lineByLine_append_singleton told hearlier.length_eq]
    congr 1
    rw [pure_eq, List.append_nil]
    exact htold rfl rfl hearlier hstatement hinv hline

/-! ## Remarks -/

open Statement (closingEntries labelEntries wordEntries firstUseEntries bindingEntry variableEntry
  variableNames variablesIn fixedAddress? declared used value)

/-- A line that is read is remarked on if it holds a label without `)`. -/
theorem Line.Reads.entry_remarks {line : Line} {statement : Statement} (h : line.Reads statement) :
    line.remarks.map Event.entry = closingEntries line statement := by
  have hderives : Derives line.tokens statement.command := Command.derives_of_ofTokens h.2
  rw [Line.remarks_eq h.tokens_ne_nil]
  cases hcommand : statement.command with
  | label name =>
    rw [hcommand] at hderives
    generalize htokens : line.tokens = tokens at hderives
    cases hderives with
    | openLabel =>
      have hlacks : Token.operator .closeParen ∉ line.tokens := by simp [htokens]
      simp only [closingEntries, hcommand, if_neg hlacks]
      rfl
    | label =>
      have hcloses : Token.operator .closeParen ∈ line.tokens := by simp [htokens]
      simp only [closingEntries, hcommand, if_pos hcloses]
      rfl
  | address symbol =>
    rw [hderives.unclosedLabel? (by rw [hcommand]; rfl), closingEntries, hcommand]
    rfl
  | compute dest comp jump =>
    rw [hderives.unclosedLabel? (by rw [hcommand]; rfl), closingEntries, hcommand]
    rfl

/-- A line is remarked on before its command is taken account of. -/
theorem Line.Reads.log_read_bind {line : Line} {statement : Statement} (h : line.Reads statement)
    (next : Option Command → Report α) :
    (line.read >>= next).log = line.remarks ++ (next (some statement.command)).log :=
  Report.log_bind_of_ok h.command? next

/-! ## The entries of labels -/

theorem Event.entry_labelBound (name : String) (address : Address) :
    (labelBound name address).entry = (.debug, s!"label `{name}` = {address.toNat}") := rfl

theorem Event.entry_labelRebound (name : String) (line : Nat) (previous address : Address) :
    (labelRebound name line previous address).entry =
      (.debug, s!"label `{name}` on line {line} rebinds {previous.toNat} to {address.toNat}") := rfl

namespace Labels

variable {statements : List Statement} {labels : Labels}

theorem log_addLine {line : Line} {statement : Statement} (h : line.Reads statement)
    (labels : Labels) :
    (labels.addLine line).log =
      line.remarks ++ (labels.addCommand line.number statement.command).log :=
  h.log_read_bind _

/-- A label is told with the number of instructions behind, and with the number that its name stood
    for, if it stood for one. -/
theorem Collects.entry_bindingEvent (hcollects : Collects statements labels)
    (line : Nat) {name : String} (hdecimal : Text.isDecimal name = false)
    (hfits : (Statement.instructions statements).length < 65536) :
    (bindingEvent labels.symbols line name
      (BitVec.ofNat 16 (Statement.instructions statements).length)).entry =
        bindingEntry statements line name := by
  have haddress : (BitVec.ofNat 16 (Statement.instructions statements).length).toNat =
      (Statement.instructions statements).length := by
    rw [BitVec.toNat_ofNat, Nat.mod_eq_of_lt hfits]
  rw [bindingEvent, hcollects.symbols, bindingEntry]
  cases hfixed : fixedAddress? statements name with
  | none =>
    have hfree := Statement.fixedAddress?_eq_none_iff.mp hfixed
    have hnew : ¬ (isReserved name = true ∨ name ∈ declared statements) := by
      simp [hfree]
    rw [if_neg hnew, Event.entry_labelBound, haddress]
  | some previous =>
    have hknown : isReserved name = true ∨ name ∈ declared statements := by
      by_contra hnew
      rw [not_or, Bool.not_eq_true] at hnew
      rw [Statement.fixedAddress?_eq_none_iff.mpr hnew.symm] at hfixed
      cases hfixed
    rw [if_pos hknown, Statement.value_of_fixedAddress? hcollects.fit hdecimal hfixed,
      Event.entry_labelRebound, haddress]

/-- The entries of a line without fault. -/
theorem Collects.entry_log_addLine (hcollects : Collects statements labels)
    {before : List Line} {line : Line} {statement : Statement}
    (hbefore : List.Forall₂ Line.Reads before statements) (hreads : line.Reads statement)
    (hlexeme : ∀ token ∈ line.tokens, token.IsLexeme)
    (hfaultless : ∀ error, ¬ LabelFault before line error) :
    (labels.addLine line).log.map Event.entry = labelEntries statements line statement := by
  rw [log_addLine hreads, List.map_append, hreads.entry_remarks, labelEntries]
  congr 1
  cases hcommand : statement.command with
  | label name =>
    have hfits : (Statement.instructions statements).length < 65536 := by
      rw [← Line.instructionCount_of_reads hbefore]
      by_contra hlate
      exact hfaultless _ (.outOfReach (hcommand ▸ hreads.2) (by omega))
    have hentry := hcollects.entry_bindingEvent line.number
      (hreads.isDecimal_of_label hlexeme hcommand) hfits
    rw [addCommand, Labels.bind, hcollects.instructions, Binary.field?_of_lt hfits]
    exact congrArg (fun entry => [entry]) hentry
  | address symbol => rfl
  | compute dest comp jump => rfl

end Labels

/-! ## The entries of variables -/

theorem Event.entry_variableBound (name : String) (address : Address) :
    (variableBound name address).entry = variableEntry name address.toNat := rfl

namespace Statement

variable {statements earlier later : List Statement} {statement : Statement} {symbol : String}

/-- A symbol is a new variable if it has no fixed address and is used for the first time. -/
theorem isFirstUse_iff (hstatements : statements = earlier ++ statement :: later)
    (hcommand : statement.command = .address symbol) :
    (symbol ∈ variableNames statements ∧ symbol ∉ used earlier) ↔
      Text.isDecimal symbol = false ∧ fixedAddress? statements symbol = none ∧
        symbol ∉ variablesIn statements earlier := by
  have hmem : statement ∈ statements := by simp [hstatements]
  rw [variableNames_eq, mem_variablesIn, mem_variablesIn, fixedAddress?_eq_none_iff, mem_used]
  constructor
  · rintro ⟨⟨⟨hdecimal, -⟩, hfree⟩, hnew⟩
    exact ⟨hdecimal, hfree, fun hearlier => hnew hearlier.1⟩
  · rintro ⟨hdecimal, hfree, hnew⟩
    exact ⟨⟨⟨hdecimal, statement, hmem, hcommand⟩, hfree⟩, fun hearlier => hnew ⟨hearlier, hfree⟩⟩

end Statement

namespace Emission

variable {statements earlier later : List Statement} {statement : Statement} {emission : Emission}
  {symbol : String}

theorem log_addLine {line : Line} (h : line.Reads statement) (emission : Emission) :
    (emission.addLine line).log =
      line.remarks ++ (emission.addCommand line.number statement.command).log :=
  h.log_read_bind _

theorem log_push (emission : Emission) (line : Nat) (command : Command)
    (bits : Except EncodeFault MachineWord) : (emission.push line command bits).log = [] := by
  cases bits <;> rfl

/-- Looking up a number tells nothing, and looking up a symbol what giving it an address does. -/
theorem log_resolve (emission : Emission) (line : Nat) (symbol : String) :
    (emission.resolve line symbol).log =
      if Text.isDecimal symbol then [] else (emission.allocate line symbol).log := by
  rw [resolve]
  split
  · cases literal line symbol <;> rfl
  · cases hallocate : (emission.allocate line symbol).result with
    | error error => rw [Report.log_bind_of_error hallocate]
    | ok next =>
      rw [Report.log_bind_of_ok hallocate]
      cases next.addressOf line symbol <;> simp [Report.ofExcept]

theorem log_addCommand_address (emission : Emission) (line : Nat) (symbol : String) :
    (emission.addCommand line (.address symbol)).log = (emission.resolve line symbol).log := by
  rw [addCommand]
  cases hresolve : (emission.resolve line symbol).result with
  | error error => rw [Report.log_bind_of_error hresolve]
  | ok found => rw [Report.log_bind_of_ok hresolve, log_push, List.append_nil]

/-- Looking up a symbol tells of it if it is a new variable. -/
theorem Knows.entry_log_resolve (hknows : Knows statements earlier emission) (line : Nat)
    (hbounded : emission.nextVariable ≤ 32768)
    (hstatements : statements = earlier ++ statement :: later)
    (hcommand : statement.command = .address symbol) :
    (emission.resolve line symbol).log.map Event.entry =
      firstUseEntries statements earlier statement := by
  have hfirst := Statement.isFirstUse_iff hstatements hcommand
  simp only [firstUseEntries, hcommand, hfirst, log_resolve]
  cases hdecimal : Text.isDecimal symbol with
  | true => simp
  | false =>
    -- Whether the table has the symbol is known from the statements alone.
    have hsymbol := hknows.symbols symbol
    cases hfixed : fixedAddress? statements symbol with
    | some address =>
      rw [hfixed, Option.some_or] at hsymbol
      simp [allocate_of_known hsymbol]
    | none =>
      rw [hfixed, Option.none_or, Statement.variableAddress?] at hsymbol
      by_cases hearlier : symbol ∈ variablesIn statements earlier
      · rw [if_pos hearlier] at hsymbol
        simp [allocate_of_known hsymbol, hearlier]
      · rw [if_neg hearlier] at hsymbol
        have hfits : emission.nextVariable < 65536 := by omega
        have hvalue : value statements symbol = emission.nextVariable := by
          rw [hknows.nextVariable,
            Statement.value_of_first_use hstatements hcommand hdecimal hfixed hearlier]
        simp [allocate_of_fresh line hsymbol hfits, hearlier, hvalue, Event.entry_variableBound,
          Nat.mod_eq_of_lt hfits]

/-- The entries of a line that is read. -/
theorem Follows.entry_log_addLine (hfollows : Follows statements earlier emission)
    (hstatements : statements = earlier ++ statement :: later) {line : Line}
    (hreads : line.Reads statement) :
    (emission.addLine line).log.map Event.entry =
      wordEntries statements earlier line statement := by
  rw [log_addLine hreads, List.map_append, hreads.entry_remarks, wordEntries]
  congr 1
  cases hcommand : statement.command with
  | label name =>
    rw [firstUseEntries, hcommand]
    rfl
  | address symbol =>
    rw [log_addCommand_address]
    exact hfollows.entry_log_resolve line.number hfollows.bounded hstatements hcommand
  | compute dest comp jump =>
    rw [firstUseEntries, hcommand, addCommand, log_push]
    rfl

end Emission

/-! ## Variables in the order of their addresses -/

namespace Statement

/-- The variables of the statements behind are told in order, with one address after the other. -/
theorem lineByLine_firstUseEntries {statements earlier later : List Statement} {lines : List Line}
    (hstatements : statements = earlier ++ later) (hlength : lines.length = earlier.length) :
    lineByLine (fun earlier _ statement => firstUseEntries statements earlier statement)
        lines earlier =
      ((variablesIn statements earlier).zipIdx variableBase).map fun (name, address) =>
        variableEntry name address := by
  induction earlier using List.reverseRecOn generalizing lines later with
  | nil =>
    obtain rfl := List.length_eq_zero_iff.mp hlength
    rfl
  | append_singleton earlier statement ih =>
    rcases List.eq_nil_or_concat lines with rfl | ⟨lines, line, rfl⟩
    · simp at hlength
    have hsplit : statements = earlier ++ statement :: later := by
      rw [hstatements, List.append_assoc, List.singleton_append]
    have hlength' : lines.length = earlier.length := by simpa using hlength
    rw [List.concat_eq_append, lineByLine_append_singleton _ hlength', ih hsplit hlength']
    cases hcommand : statement.command with
    | address symbol =>
      have hfirst := isFirstUse_iff hsplit hcommand
      by_cases hnew : symbol ∈ variableNames statements ∧ symbol ∉ used earlier
      · obtain ⟨hdecimal, hfixed, hfresh⟩ := hfirst.mp hnew
        rw [variablesIn_append_singleton_of_fresh hcommand hdecimal hfixed hfresh,
          List.zipIdx_append, List.map_append]
        simp only [firstUseEntries, hcommand, if_pos hnew,
          value_of_first_use hsplit hcommand hdecimal hfixed hfresh]
        rfl
      · have hsame := variablesIn_append_singleton_of_address statements earlier hcommand
          fun hdecimal hfixed => by
            by_contra hfresh
            exact hnew (hfirst.mpr ⟨hdecimal, hfixed, hfresh⟩)
        simp only [firstUseEntries, hcommand, if_neg hnew, hsame, List.append_nil]
    | label name =>
      have hsame :
          variablesIn statements (earlier ++ [statement]) = variablesIn statements earlier :=
        variablesIn_append_singleton_of_not_address statements earlier (by simp [hcommand])
      simp only [firstUseEntries, hcommand, hsame, List.append_nil]
    | compute dest comp jump =>
      have hsame :
          variablesIn statements (earlier ++ [statement]) = variablesIn statements earlier :=
        variablesIn_append_singleton_of_not_address statements earlier (by simp [hcommand])
      simp only [firstUseEntries, hcommand, hsame, List.append_nil]

end Statement

/-- Every variable has the address in the table that it is told with. -/
theorem Program.Means.address_of_mem_zipIdx {statements : List Statement} {program : Program}
    (h : Means statements program) {name : String} {address : Nat}
    (hmem : (name, address) ∈ (variableNames statements).zipIdx variableBase) :
    (program.symbols.get? name).map BitVec.toNat = some address := by
  obtain ⟨hle, hname⟩ := List.mk_mem_zipIdx_iff_le_and_getElem?_sub.mp hmem
  obtain ⟨bound, hbinds, htoNat⟩ := exists_bindsVariable h hname
  rw [hbinds.bound, Option.map_some, htoNat, Nat.add_sub_cancel' hle]

/-! ## Warnings -/

theorem warnings_append (log more : List Event) :
    warnings (log ++ more) = warnings log ++ warnings more :=
  List.filter_append ..

theorem Line.level_of_mem_remarks {line : Line} : ∀ event ∈ line.remarks, event.level = .warn := by
  unfold Line.remarks
  split
  · simp [Event.level]
  · split <;> simp [Event.level]

/-- An entry of a single line that is no warning. -/
def Event.IsQuiet (event : Event) : Prop :=
  event.level = .debug ∧ event ≠ .emittingCode

/-- A line is remarked on first, whatever its command and whether it has one. -/
theorem Line.exists_log_read_bind {P : Event → Prop} (line : Line)
    {next : Option Command → Report α} (h : ∀ command?, ∀ event ∈ (next command?).log, P event) :
    ∃ more, (line.read >>= next).log = line.remarks ++ more ∧ ∀ event ∈ more, P event := by
  cases hread : line.read.result with
  | error error =>
    refine ⟨[], ?_, by simp⟩
    rw [Report.log_bind_of_error hread, List.append_nil]
    rfl
  | ok command? => exact ⟨_, Report.log_bind_of_ok hread next, h command?⟩

theorem Labels.exists_log_addLine (labels : Labels) (line : Line) :
    ∃ more, (labels.addLine line).log = line.remarks ++ more ∧ ∀ event ∈ more, event.IsQuiet := by
  refine line.exists_log_read_bind fun command? => ?_
  rcases command? with _ | _ | _ | name
  · simp
  · simp [addCommand]
  · simp [addCommand]
  · simp only [addCommand, bind]
    split
    · unfold bindingEvent
      split <;> simp [Event.IsQuiet, Event.level]
    · simp [Report.fail]

theorem Emission.exists_log_addLine (emission : Emission) (line : Line) :
    ∃ more, (emission.addLine line).log = line.remarks ++ more ∧
      ∀ event ∈ more, event.IsQuiet := by
  refine line.exists_log_read_bind fun command? => ?_
  rcases command? with _ | symbol | ⟨dest, comp, jump⟩ | name
  · simp
  · rw [log_addCommand_address, log_resolve, allocate]
    split
    · simp
    · split
      · simp
      · split <;> simp [Event.IsQuiet, Event.level, Report.fail]
  · simp [addCommand, log_push]
  · simp [addCommand]

/-- Steps that tell of nothing important but the remarks on their line. -/
def Remarks (step : σ → Line → Report σ) : Prop :=
  ∀ state line, ∃ more, (step state line).log = line.remarks ++ more ∧
    ∀ event ∈ more, event.IsQuiet

namespace Remarks

variable {step : σ → Line → Report σ}

theorem warnings_log (h : Remarks step) (state : σ) (line : Line) :
    warnings (step state line).log = line.remarks := by
  obtain ⟨more, hlog, hmore⟩ := h state line
  have hremarks : warnings line.remarks = line.remarks := by
    rw [warnings, List.filter_eq_self]
    simpa using Line.level_of_mem_remarks
  have hquiet : warnings more = [] := by
    rw [warnings, List.filter_eq_nil_iff]
    intro event hevent
    simp [(hmore event hevent).1]
  rw [hlog, warnings_append, hremarks, hquiet, List.append_nil]

theorem emittingCode_not_mem_log (h : Remarks step) (state : σ) (line : Line) :
    .emittingCode ∉ (step state line).log := by
  obtain ⟨more, hlog, hmore⟩ := h state line
  rw [hlog, List.mem_append, not_or]
  constructor
  · intro hmem
    cases line.level_of_mem_remarks _ hmem
  · intro hmem
    exact (hmore _ hmem).2 rfl

/-- A walk to the end gives all warnings. -/
theorem warnings_log_fold_of_ok (h : Remarks step) {state final : σ} {lines : List Line}
    (hok : (Report.fold step state lines).result = .ok final) :
    warnings (Report.fold step state lines).log = lines.flatMap Line.remarks := by
  induction lines generalizing state with
  | nil => rfl
  | cons line lines ih =>
    rw [Report.fold_cons] at hok ⊢
    obtain ⟨next, hnext, hrest⟩ := Report.result_bind_eq_ok_iff.mp hok
    rw [Report.log_bind_of_ok hnext, warnings_append, h.warnings_log, ih hrest, List.flatMap_cons]

/-- A walk that may fail gives the first ones of all warnings. -/
theorem warnings_log_fold_prefix (h : Remarks step) (state : σ) (lines : List Line) :
    warnings (Report.fold step state lines).log <+: lines.flatMap Line.remarks := by
  induction lines generalizing state with
  | nil => exact List.prefix_rfl
  | cons line lines ih =>
    rw [Report.fold_cons, List.flatMap_cons]
    cases hnext : (step state line).result with
    | error error =>
      rw [Report.log_bind_of_error hnext, h.warnings_log]
      exact List.prefix_append ..
    | ok next =>
      rw [Report.log_bind_of_ok hnext, warnings_append, h.warnings_log]
      exact (List.prefix_append_right_inj _).mpr (ih next)

theorem emittingCode_not_mem_log_fold (h : Remarks step) (state : σ) (lines : List Line) :
    .emittingCode ∉ (Report.fold step state lines).log := by
  have hne : ∀ event ∈ (Report.fold step state lines).log, event ≠ .emittingCode :=
    Report.forall_mem_log_fold
      (fun line _ state _ hevent =>
        ne_of_mem_of_not_mem hevent (h.emittingCode_not_mem_log state line))
      state
  exact fun hmem => hne _ hmem rfl

end Remarks

/-! ## The two walks -/

namespace Program

variable {lines : List Line} {statements : List Statement} {labels : Labels}

/-- The warnings of a source are those about labels without `)`, in the order of the lines. -/
theorem entry_flatMap_remarks (hreads : List.Forall₂ Line.Reads lines statements) :
    (lines.flatMap Line.remarks).map Event.entry =
      (lines.zip statements).flatMap fun (line, statement) => closingEntries line statement := by
  induction hreads with
  | nil => rfl
  | cons hline _ ih =>
    rw [List.flatMap_cons, List.map_append, hline.entry_remarks, ih, List.zip_cons_cons,
      List.flatMap_cons]

theorem log_ofLines_of_labels_error {error : Error}
    (h : (Labels.ofLines lines).result = .error error) :
    (ofLines lines).log = .collectingLabels :: (Labels.ofLines lines).log := by
  rw [ofLines, Report.log_bind_of_ok (Report.result_tell _), Report.log_bind_of_error h]
  rfl

theorem log_ofLines_of_ok {emission : Emission}
    (hlabels : (Labels.ofLines lines).result = .ok labels)
    (h : (Emission.ofLines labels.symbols lines).result = .ok emission) :
    (ofLines lines).log = (.collectingLabels :: (Labels.ofLines lines).log) ++
      .emittingCode :: ((Emission.ofLines labels.symbols lines).log ++
        [.assembled emission.words.size emission.symbols.size]) := by
  rw [ofLines, Report.log_bind_of_ok (Report.result_tell _), Report.log_bind_of_ok hlabels,
    Report.log_bind_of_ok (Report.result_tell _), Report.log_bind_of_ok h]
  rfl

/-- Once the labels are collected, the second walk is announced, and nothing but its end is told
    after it. -/
theorem exists_log_ofLines (hlabels : (Labels.ofLines lines).result = .ok labels) :
    ∃ last, (ofLines lines).log = (.collectingLabels :: (Labels.ofLines lines).log) ++
      .emittingCode :: ((Emission.ofLines labels.symbols lines).log ++ last) ∧
        ∀ event ∈ last, event.level = .info := by
  cases h : (Emission.ofLines labels.symbols lines).result with
  | error error =>
    refine ⟨[], ?_, by simp⟩
    rw [ofLines, Report.log_bind_of_ok (Report.result_tell _), Report.log_bind_of_ok hlabels,
      Report.log_bind_of_ok (Report.result_tell _), Report.log_bind_of_error h, List.append_nil]
    rfl
  | ok emission => exact ⟨_, log_ofLines_of_ok hlabels h, by simp [Event.level]⟩

/-- Behind the announcement of the second walk there are the first ones of the warnings before
    it. -/
theorem warnings_prefix {first second : List Event}
    (h : (ofLines lines).log = first ++ .emittingCode :: second) :
    warnings second <+: warnings first := by
  have hcollect : Remarks Labels.addLine := Labels.exists_log_addLine
  have hemit : Remarks Emission.addLine := Emission.exists_log_addLine
  have hfirst : .emittingCode ∉ .collectingLabels :: (Labels.ofLines lines).log := by
    rw [List.mem_cons, not_or]
    exact ⟨by simp, hcollect.emittingCode_not_mem_log_fold Labels.start lines⟩
  cases hlabels : (Labels.ofLines lines).result with
  | error error =>
    -- There is no such announcement if the labels are not collected.
    rw [log_ofLines_of_labels_error hlabels] at h
    exact absurd (by rw [h]; simp) hfirst
  | ok labels =>
    obtain ⟨last, hlog, hlast⟩ := exists_log_ofLines hlabels
    have hsecond : .emittingCode ∉ (Emission.ofLines labels.symbols lines).log ++ last := by
      rw [List.mem_append, not_or]
      exact ⟨hemit.emittingCode_not_mem_log_fold (.start labels.symbols) lines,
        fun hmem => by cases hlast _ hmem⟩
    -- The announcement is made once, so the log is cut at this place.
    rw [hlog, List.append_cons_inj_of_notMem hfirst hsecond] at h
    obtain ⟨rfl, -, rfl⟩ := h
    have hnone : warnings last = [] := by
      rw [warnings, List.filter_eq_nil_iff]
      intro event hevent
      simp [hlast event hevent]
    have hall : warnings (.collectingLabels :: (Labels.ofLines lines).log) =
        lines.flatMap Line.remarks :=
      hcollect.warnings_log_fold_of_ok hlabels
    rw [warnings_append, hnone, List.append_nil, hall]
    exact hemit.warnings_log_fold_prefix (.start labels.symbols) lines

/-! ## Sources that are assembled -/

/-- What the log of an assembled source says. -/
structure Tells (lines : List Line) (statements : List Statement) (program : Program)
    (log : List Event) : Prop where
  /-- The log is the account of the program, entry by entry. -/
  entries : log.map Event.entry = program.account lines statements
  /-- The variables are told in the order of their first use, with the addresses from 16 on. -/
  firstUses : lineByLine (fun earlier _ statement => firstUseEntries statements earlier statement)
      lines statements =
    ((variableNames statements).zipIdx 16).map fun (name, address) => variableEntry name address
  /-- These are the addresses of the table. -/
  addresses : ∀ name address, (name, address) ∈ (variableNames statements).zipIdx 16 →
    (program.symbols.get? name).map BitVec.toNat = some address
  /-- The warnings are those about labels without `)`, line after line, and then once more. -/
  twice : (warnings log).map Event.entry =
    ((lines.zip statements).flatMap fun (line, statement) => closingEntries line statement) ++
      (lines.zip statements).flatMap fun (line, statement) => closingEntries line statement

/-- Lines without fault are told of with their labels. -/
theorem map_entry_log_labels (hne : ∀ line ∈ lines, line.tokens ≠ [])
    (hlexeme : ∀ line ∈ lines, ∀ token ∈ line.tokens, token.IsLexeme)
    (h : Faultless LabelFault lines) (hreads : List.Forall₂ Line.Reads lines statements) :
    (Labels.ofLines lines).log.map Event.entry = lineByLine labelEntries lines statements := by
  refine (Labels.tracks hne).log_fold ⟨[], .nil, Labels.collects_start⟩ h hreads ?_
  rintro before after line earlier later statement labels hlines - hbefore hline
    ⟨collected, hcollected, hcollects⟩ hfaultless
  obtain rfl := Statement.eq_of_reads hcollected hbefore
  exact hcollects.entry_log_addLine hbefore hline (hlexeme line (by rw [hlines]; simp)) hfaultless

/-- Lines without fault are told of with their variables. -/
theorem map_entry_log_emission (hlexeme : ∀ line ∈ lines, ∀ token ∈ line.tokens, token.IsLexeme)
    (hcollects : labels.Collects statements)
    (h : Faultless (fun _ line error => WordFault statements line error) lines)
    (hreads : List.Forall₂ Line.Reads lines statements) :
    (Emission.ofLines labels.symbols lines).log.map Event.entry =
      lineByLine (wordEntries statements) lines statements := by
  refine (Emission.tracks hreads hcollects hlexeme).log_fold (Emission.follows_start hcollects) h
    hreads ?_
  intro before after line earlier later statement emission _ hstatements hbefore hline hfollows _
  have hbehind : statements.take before.length = earlier := by
    rw [hstatements, hbefore.length_eq, List.take_left]
  rw [hbehind] at hfollows
  exact hfollows.entry_log_addLine hstatements hline

/-- An accepted source is told of as it is assembled. -/
theorem tells_of_acceptance (hne : ∀ line ∈ lines, line.tokens ≠ [])
    (hlexeme : ∀ line ∈ lines, ∀ token ∈ line.tokens, token.IsLexeme)
    (h : Acceptance lines statements) {program : Program}
    (hresult : (ofLines lines).result = .ok program) (hmeans : Means statements program) :
    Tells lines statements program (ofLines lines).log := by
  obtain ⟨other, labels, hreads, hlabels, hcollects⟩ := Labels.ofLines_of_faultless hne h.collected
  obtain rfl := Statement.eq_of_reads hreads h.reads
  obtain ⟨emission, hemission, -⟩ :=
    Emission.ofLines_of_faultless hreads hcollects hlexeme h.emitted
  rw [result_ofLines_of_ok hlabels hemission] at hresult
  obtain rfl := Except.ok.inj hresult
  have hlog := log_ofLines_of_ok hlabels hemission
  refine ⟨?_, ?_, fun name address hmem => hmeans.address_of_mem_zipIdx hmem, ?_⟩
  · rw [hlog, account, List.map_append, List.map_cons, List.map_cons, List.map_append,
      map_entry_log_labels hne hlexeme h.collected hreads,
      map_entry_log_emission hlexeme hcollects h.emitted hreads]
    simp only [List.append_assoc, List.cons_append, List.nil_append]
    rfl
  · rw [Statement.lineByLine_firstUseEntries (List.append_nil _).symm hreads.length_eq]
    rfl
  · have hcollect : Remarks Labels.addLine := Labels.exists_log_addLine
    have hemit : Remarks Emission.addLine := Emission.exists_log_addLine
    have hfirst : warnings (.collectingLabels :: (Labels.ofLines lines).log) =
        lines.flatMap Line.remarks :=
      hcollect.warnings_log_fold_of_ok hlabels
    have hsecond : warnings (.emittingCode :: (Emission.ofLines labels.symbols lines).log) =
        lines.flatMap Line.remarks :=
      hemit.warnings_log_fold_of_ok hemission
    have hlast : warnings [.assembled emission.words.size emission.symbols.size] = [] := rfl
    rw [hlog, ← List.cons_append, warnings_append, warnings_append, hfirst, hsecond, hlast,
      List.append_nil, List.map_append, entry_flatMap_remarks hreads]

/-! ## Main result -/

/-- The log of an assembled source is its account: the labels with the numbers they are bound to,
    the variables with their addresses where they are first used, the number of words and symbols,
    and the warnings about labels without `)`, once for each walk. If a walk fails then what the
    second one has warned about are the first ones of the warnings of the first one. -/
theorem assemble_log (source : String) :
    (∀ program, (assemble source).result = .ok program →
      ∃ statements, List.Forall₂ Line.Reads (Line.ofSource source) statements ∧
        Tells (Line.ofSource source) statements program (assemble source).log) ∧
    ∀ first second, (assemble source).log = first ++ .emittingCode :: second →
      warnings second <+: warnings first := by
  refine ⟨fun program hresult => ?_, fun first second hlog => warnings_prefix hlog⟩
  obtain ⟨statements, haccept, hmeans⟩ := acceptance_of_assemble hresult
  exact ⟨statements, haccept.reads,
    tells_of_acceptance (tokens_ne_nil_of_mem _) (isLexeme_of_mem _) haccept hresult hmeans⟩

/-- A label that is declared again, a reserved one and a variable, with two warnings each time; and
    a source whose second line keeps the second walk from warning again about the third. -/
theorem assemble_log_rebound :
    (∃ program statements,
      (assemble "(LOOP\n@i\n(SP)\n(LOOP\n@LOOP").result = .ok program ∧
      List.Forall₂ Line.Reads (Line.ofSource "(LOOP\n@i\n(SP)\n(LOOP\n@LOOP") statements ∧
      Tells (Line.ofSource "(LOOP\n@i\n(SP)\n(LOOP\n@LOOP") statements program
        (assemble "(LOOP\n@i\n(SP)\n(LOOP\n@LOOP").log) ∧
    ∃ first second, (assemble "(A\nD=Q\n(B").log = first ++ .emittingCode :: second ∧
      warnings first = [.unclosedLabel "A" 1, .unclosedLabel "B" 3] ∧
      warnings second = [.unclosedLabel "A" 1] ∧ warnings second <+: warnings first := by
  constructor
  · have hfine : (assemble "(LOOP\n@i\n(SP)\n(LOOP\n@LOOP").result.isOk = true := by
      decide +kernel
    obtain ⟨program, hresult⟩ := exists_eq_ok_of_isOk hfine
    obtain ⟨statements, hreads, htells⟩ := (assemble_log _).1 program hresult
    exact ⟨program, statements, hresult, hreads, htells⟩
  · have hlog : (assemble "(A\nD=Q\n(B").log =
        [.collectingLabels, .unclosedLabel "A" 1, .labelBound "A" 0#16, .unclosedLabel "B" 3,
          .labelBound "B" 1#16] ++ .emittingCode :: [.unclosedLabel "A" 1] := by
      decide +kernel
    exact ⟨_, _, hlog, rfl, rfl, (assemble_log _).2 _ _ hlog⟩

end Program

end HackAssembler
