/-
  HackAssembler.Proofs.Program.Bounds

  What cannot happen while a source is assembled. Lines without tokens are never read, so there is
  no remark on them; a symbol always has an address when it is asked for one, and there is always an
  address to give; and the lines are refused when labels are collected or not at all. Variables run
  out in one way only: the first one beyond the 15 bits of a word is found too large on the line that
  uses it first.
-/
import HackAssembler.Proofs.Program.Reprinting
import HackAssembler.Proofs.Program.States
import HackAssembler.Proofs.Program.Words

namespace HackAssembler

open Statement (variableNames value)

/-! ## Remarks that are never made -/

/-- There is no empty command on a line with tokens. -/
theorem Line.emptyCommand_not_mem_remarks {line : Line} (hne : line.tokens ≠ []) (number : Nat) :
    .emptyCommand number ∉ line.remarks := by
  rw [Line.remarks_eq hne]
  simp

/-- A source is read to its end without an empty command: as long as a line is left there is a
    command on it, or it is refused. -/
theorem Reader.advance_of_hasMore {source : String} {reader : Reader} {count : Nat}
    (hreader : reader = (fun reader : Reader => reader.advance.2)^[count] (ofSource source))
    (hmore : reader.hasMore = true) :
    reader.advance.1.result ≠ .ok false ∧
      ∀ number, .emptyCommand number ∉ reader.advance.1.log := by
  have hpending : reader.pending = (Line.ofSource source).drop count := by
    rw [hreader, pending_iterate_advance]
    rfl
  cases hlines : reader.pending with
  | nil =>
    rw [hasMore, hlines] at hmore
    cases hmore
  | cons line pending =>
    have hmem : line ∈ Line.ofSource source := by
      apply List.mem_of_mem_drop (i := count)
      rw [← hpending, hlines]
      simp
    have hne := Program.tokens_ne_nil_of_mem source line hmem
    cases hcommand : Command.ofTokens line.tokens with
    | ok command =>
      rw [advance_of_command hlines hcommand]
      exact ⟨by simp, Line.emptyCommand_not_mem_remarks hne⟩
    | error fault =>
      rw [advance_of_fault hlines hne hcommand]
      exact ⟨by simp, Line.emptyCommand_not_mem_remarks hne⟩

namespace Labels

theorem emptyCommand_not_mem_log_addLine {line : Line} (hne : line.tokens ≠ []) (number : Nat)
    (labels : Labels) : ∀ event ∈ (labels.addLine line).log, event ≠ .emptyCommand number := by
  refine Report.forall_mem_log_bind ?_ fun command? _ => ?_
  · rintro event hevent rfl
    exact Line.emptyCommand_not_mem_remarks hne number hevent
  · rcases command? with _ | _ | _ | name
    · simp
    · simp [addCommand]
    · simp [addCommand]
    · simp only [addCommand, bind]
      split
      · unfold bindingEvent
        split <;> simp
      · simp [Report.fail]

end Labels

namespace Emission

theorem emptyCommand_not_mem_log_push (emission : Emission) (line : Nat) (command : Command)
    (bits : Except EncodeFault MachineWord) (number : Nat) :
    ∀ event ∈ (emission.push line command bits).log, event ≠ .emptyCommand number := by
  cases bits <;> simp [push, Report.fail]

theorem emptyCommand_not_mem_log_resolve (emission : Emission) (line : Nat) (symbol : String)
    (number : Nat) : ∀ event ∈ (emission.resolve line symbol).log, event ≠ .emptyCommand number := by
  unfold resolve
  split
  · exact Report.forall_mem_log_bind (by simp [Report.ofExcept]) (by simp)
  · refine Report.forall_mem_log_bind ?_ fun next _ =>
      Report.forall_mem_log_bind (by simp [Report.ofExcept]) (by simp)
    unfold allocate
    split
    · simp
    · split <;> simp [Report.fail]

theorem emptyCommand_not_mem_log_addLine {line : Line} (hne : line.tokens ≠ []) (number : Nat)
    (emission : Emission) :
    ∀ event ∈ (emission.addLine line).log, event ≠ .emptyCommand number := by
  refine Report.forall_mem_log_bind ?_ fun command? _ => ?_
  · rintro event hevent rfl
    exact Line.emptyCommand_not_mem_remarks hne number hevent
  · rcases command? with _ | symbol | ⟨dest, comp, jump⟩ | name
    · simp
    · exact Report.forall_mem_log_bind
        (emptyCommand_not_mem_log_resolve emission line.number symbol number) fun (_, next) _ =>
          emptyCommand_not_mem_log_push next line.number _ _ number
    · exact emptyCommand_not_mem_log_push emission line.number _ _ number
    · simp [addCommand]

end Emission

namespace Program

theorem emptyCommand_not_mem_log (source : String) (number : Nat) :
    ∀ event ∈ (assemble source).log, event ≠ .emptyCommand number := by
  have hne := tokens_ne_nil_of_mem source
  have htell (event : Event) (h : event ≠ .emptyCommand number) :
      ∀ told ∈ (Report.tell event).log, told ≠ .emptyCommand number := by
    simpa [Report.tell] using h
  refine Report.forall_mem_log_bind (htell _ (by simp)) fun _ _ =>
    Report.forall_mem_log_bind ?_ fun labels _ =>
    Report.forall_mem_log_bind (htell _ (by simp)) fun _ _ =>
    Report.forall_mem_log_bind ?_ fun emission _ =>
    Report.forall_mem_log_bind (htell _ (by simp)) (by simp)
  · exact Report.forall_mem_log_fold (fun line hline labels =>
      Labels.emptyCommand_not_mem_log_addLine (hne line hline) number labels) _
  · exact Report.forall_mem_log_fold (fun line hline emission =>
      Emission.emptyCommand_not_mem_log_addLine (hne line hline) number emission) _

/-! ## Errors that never occur -/

/-- No fault is that of a symbol without an address. -/
theorem result_ne_unresolved (source : String) (line : Nat) (symbol : String) :
    (assemble source).result ≠ .error (.unresolved line symbol) := by
  intro h
  obtain ⟨place, hplace⟩ := rejection_of_assemble h
  cases hplace with
  | labels first =>
    obtain ⟨before, after, -, -, hfault⟩ := first
    cases hfault
  | words _ _ first =>
    obtain ⟨before, after, -, -, hfault⟩ := first
    cases hfault

end Program

/-! ## Bounds of the states -/

/-- What holds of all states in which the words of some lines are emitted, and of the way they
    end. -/
structure Emission.StaysInBounds (labels : SymbolTable) (lines : List Line) : Prop where
  /-- The next variable comes behind those that have an address already, which are all different. -/
  allocated : ∀ state ∈ (start labels).states lines, ∃ names, Allocated labels names state ∧
    ∀ name ∈ names, ∀ other ∈ names, state.symbols.get? name = state.symbols.get? other →
      name = other
  /-- No address is taken away or changed. -/
  kept : ((start labels).states lines).Pairwise fun state later =>
    state.symbols.IsKeptBy later.symbols
  /-- There is an address for every symbol. -/
  allocates : ∀ state ∈ (start labels).states lines, ∀ line name,
    ∃ next, (state.allocate line name).result = .ok next
  /-- No line is refused that was not refused before. -/
  reads : ∀ line message, (ofLines labels lines).result ≠ .error (.malformed line message)
  /-- The result is the last state. -/
  ends : ∀ emission, (ofLines labels lines).result = .ok emission →
    ((start labels).states lines).getLast? = some emission

namespace Labels

/-- Labels that are collected are those of the statements of the lines. -/
theorem exists_of_ofLines {lines : List Line} {labels : Labels}
    (hne : ∀ line ∈ lines, line.tokens ≠ []) (h : (ofLines lines).result = .ok labels) :
    Faultless LabelFault lines ∧ ∃ statements, List.Forall₂ Line.Reads lines statements ∧
      Collects statements labels := by
  have hfaultless := (tracks hne).faultless_of_ok ⟨[], .nil, collects_start⟩ h
  obtain ⟨statements, found, hreads, hfound, hcollects⟩ := ofLines_of_faultless hne hfaultless
  rw [h] at hfound
  cases hfound
  exact ⟨hfaultless, statements, hreads, hcollects⟩

end Labels

theorem Emission.staysInBounds {lines : List Line} {labels : Labels}
    (hne : ∀ line ∈ lines, line.tokens ≠ [])
    (hlexeme : ∀ line ∈ lines, ∀ token ∈ line.tokens, token.IsLexeme)
    (h : (Labels.ofLines lines).result = .ok labels) : StaysInBounds labels.symbols lines where
  allocated state hstate := by
    obtain ⟨names, hnames⟩ := (allocated_start labels.symbols).states start_bounded lines state hstate
    exact ⟨_, hnames, fun name hname other hother => hnames.eq_of_get?_eq hname hother⟩
  kept := pairwise_states _ lines
  allocates state hstate line name := by
    obtain ⟨names, hnames⟩ := (allocated_start labels.symbols).states start_bounded lines state hstate
    have hbounded := hnames.bounded
    exact exists_allocate (by omega) line name
  reads line message herror := by
    obtain ⟨-, statements, hreads, hcollects⟩ := Labels.exists_of_ofLines hne h
    obtain ⟨place, before, after, -, -, hfault⟩ :=
      (tracks hreads hcollects hlexeme).exists_firstFault_of_error (follows_start hcollects) herror
    cases hfault
  ends emission := getLast?_states

/-! ## Too many variables -/

/-- A line is the first one that loads a name, and `before` are the lines before it. -/
structure Line.IsFirstUse (lines before : List Line) (line : Line) (name : String) : Prop where
  split : ∃ after, lines = before ++ line :: after
  loads : Command.ofTokens line.tokens = .ok (.address name)
  first : ∀ earlier ∈ before, Command.ofTokens earlier.tokens ≠ .ok (.address name)

/-- A symbol that is used has a line where it is used first. -/
theorem Line.exists_isFirstUse {lines : List Line} {statements : List Statement} {name : String}
    (hreads : List.Forall₂ Line.Reads lines statements) (hname : name ∈ Statement.used statements) :
    ∃ before line, Line.IsFirstUse lines before line name := by
  obtain ⟨used, hused, hcommand⟩ := (Statement.exists_command_iff_of_reads hreads _).mp
    (Statement.mem_used.mp hname).2
  -- The first of the lines that load the name is found by searching for it.
  let loads (line : Line) : Bool := decide (Command.ofTokens line.tokens = .ok (.address name))
  have hfound : (lines.find? loads).isSome = true := by
    rw [List.find?_isSome]
    exact ⟨used, hused, decide_eq_true hcommand⟩
  obtain ⟨line, hline⟩ := Option.isSome_iff_exists.mp hfound
  obtain ⟨hloads, before, after, hsplit, hfirst⟩ := List.find?_eq_some_iff_append.mp hline
  refine ⟨before, line, ⟨after, hsplit⟩, of_decide_eq_true hloads, fun earlier hearlier => ?_⟩
  simpa [loads] using hfirst earlier hearlier

namespace Program

variable {lines : List Line} {labels : Labels} {statements : List Statement}

/-- If words can be emitted up to a line at fault, then the fault is that of the source. -/
theorem result_ofLines_of_wordFault (hne : ∀ line ∈ lines, line.tokens ≠ [])
    (hlexeme : ∀ line ∈ lines, ∀ token ∈ line.tokens, token.IsLexeme)
    (hlabels : (Labels.ofLines lines).result = .ok labels)
    (hreads : List.Forall₂ Line.Reads lines statements) {before after : List Line} {line : Line}
    (hlines : lines = before ++ line :: after) {emission : Emission}
    (hemission : (Emission.ofLines labels.symbols before).result = .ok emission) {error : Error}
    (hfault : WordFault statements line error) : (ofLines lines).result = .error error := by
  obtain ⟨-, found, hfound, hcollects⟩ := Labels.exists_of_ofLines hne hlabels
  obtain rfl := Statement.eq_of_reads hfound hreads
  have htracks := Emission.tracks hreads hcollects hlexeme
  -- The walk through the lines before has the values of the whole program, later labels included.
  have hbefore := htracks
  rw [hlines] at hbefore
  have hfaultless := hbefore.of_append.faultless_of_ok (Emission.follows_start hcollects) hemission
  exact result_ofLines_of_emission_error hlabels
    (Emission.ofLines_of_firstFault hreads hcollects hlexeme
      ⟨before, after, hlines, hfaultless, hfault⟩)

/-- The variable that has no 15-bit address is found too large where it is used first, unless words
    cannot be emitted up to there. -/
theorem result_of_large_variable (hne : ∀ line ∈ lines, line.tokens ≠ [])
    (hlexeme : ∀ line ∈ lines, ∀ token ∈ line.tokens, token.IsLexeme)
    (hlabels : (Labels.ofLines lines).result = .ok labels)
    (hreads : List.Forall₂ Line.Reads lines statements) {index : Nat} (hindex : 32752 ≤ index)
    {name : String} (hname : (variableNames statements)[index]? = some name) {before : List Line}
    {line : Line} (hfirst : Line.IsFirstUse lines before line name) :
    (∀ emission, (Emission.ofLines labels.symbols before).result = .ok emission →
      (ofLines lines).result =
        .error (.addressRange line.number (toString (variableBase + index)))) ∧
    ∀ error, (Emission.ofLines labels.symbols before).result = .error error →
      (ofLines lines).result = .error error ∧
        ∃ earlier ∈ before, error.line? = some earlier.number := by
  obtain ⟨after, hlines⟩ := hfirst.split
  refine ⟨fun emission hemission => ?_, fun error herror => ?_⟩
  · have hvalue := Statement.value_of_getElem? hname
    have hdecimal : Text.isDecimal name = false :=
      (Statement.mem_used.mp (Statement.mem_variablesIn.mp (List.mem_of_getElem? hname)).1).1
    have htext : Statement.valueText statements name = toString (variableBase + index) := by
      rw [Statement.valueText, if_neg (by simp [hdecimal]), hvalue]
    have hlarge : 32767 < value statements name := by
      rw [hvalue, variableBase]
      omega
    rw [← htext]
    exact result_ofLines_of_wordFault hne hlexeme hlabels hreads hlines hemission
      (.addressRange hfirst.loads hlarge)
  · obtain ⟨-, found, hfound, hcollects⟩ := Labels.exists_of_ofLines hne hlabels
    obtain rfl := Statement.eq_of_reads hfound hreads
    have htracks := Emission.tracks hreads hcollects hlexeme
    have hbefore := htracks
    rw [hlines] at hbefore
    obtain ⟨earlier, hfault⟩ :=
      hbefore.of_append.exists_firstFault_of_error (Emission.follows_start hcollects) herror
    refine ⟨result_ofLines_of_emission_error hlabels
      (htracks.result_of_firstFault (Emission.follows_start hcollects)
        (hlines ▸ hfault.append (line :: after))), earlier, hfault.mem, ?_⟩
    obtain ⟨_, _, -, -, hword⟩ := hfault
    exact hword.line?

/-! ## Large addresses -/

/-- A name with an address of 16 bits is a label that is not used. -/
theorem declared_of_large {source : String} {program : Program}
    (h : (assemble source).result = .ok program) {name : String} {address : Address}
    (hbound : program.symbols.get? name = some address) (hlarge : 32767 < address.toNat) :
    (∃ line ∈ Line.ofSource source, Command.ofTokens line.tokens = .ok (.label name)) ∧
      ∀ line ∈ Line.ofSource source, Command.ofTokens line.tokens ≠ .ok (.address name) := by
  obtain ⟨statements, haccept, hmeans⟩ := acceptance_of_assemble h
  have hvalue := hmeans.address name address hbound
  -- What is used has a word, so its address has 15 bits.
  have hunused : ∀ line ∈ Line.ofSource source,
      Command.ofTokens line.tokens ≠ .ok (.address name) := by
    intro line hline hloads
    obtain ⟨before, after, hlines⟩ := List.append_of_mem hline
    exact haccept.emitted before line after hlines _ (.addressRange hloads (by omega))
  refine ⟨?_, hunused⟩
  rw [← Statement.exists_command_iff_of_reads haccept.reads, ← Statement.mem_declared]
  by_contra hdeclared
  rcases (hmeans.bound name).mp (by rw [hbound]; rfl) with hreserved | hlabel | hvariable
  · -- The reserved names have addresses of 15 bits.
    have hsmall : ∀ entry ∈ reservedSymbols, entry.2.toNat ≤ 32767 := by decide
    rw [Statement.isReserved_eq_isSome] at hreserved
    obtain ⟨fixed, hfixed⟩ := Option.isSome_iff_exists.mp hreserved
    rw [value, if_neg (by simp [isDecimal_of_isReserved, Statement.isReserved_eq_isSome, hfixed]),
      Statement.declaration?_eq_none_iff.mpr hdeclared, hfixed] at hvalue
    obtain ⟨before, after, hentry, -⟩ := List.lookup_eq_some_iff.mp hfixed
    have hfits := hsmall (name, fixed) (by rw [hentry]; simp)
    simp only at hfits hvalue
    omega
  · exact hdeclared hlabel
  · obtain ⟨line, hline, hloads⟩ := (Statement.exists_command_iff_of_reads haccept.reads _).mp
      (Statement.mem_used.mp (Statement.mem_variablesIn.mp hvariable).1).2
    exact hunused line hline hloads

/-! ## Sources that load variables -/

/-- Different names for variables. -/
structure AreVariables (names : List String) : Prop where
  nodup : names.Nodup
  identifier : ∀ name ∈ names, (Token.identifier name).IsLexeme
  free : ∀ name ∈ names, isReserved name = false

namespace AreVariables

variable {names : List String}

/-- The names are loaded one a line. -/
theorem reads (h : AreVariables names) :
    List.Forall₂ Line.Reads (Line.ofSource (sourceOf (names.map .address)))
      (statementsOf (names.map .address)) := by
  apply reads_sourceOf
  intro command hcommand
  obtain ⟨name, hname, rfl⟩ := List.mem_map.mp hcommand
  refine Command.exists_written (.address (.identifier name)) ?_
  rw [List.forall_mem_cons, List.forall_mem_singleton]
  exact ⟨Token.isLexeme_operator _, h.identifier name hname⟩

theorem exists_of_mem {statement : Statement}
    (h : statement ∈ statementsOf (names.map .address)) :
    ∃ name ∈ names, statement.command = .address name := by
  have hcommand : statement.command ∈ names.map Command.address := by
    rw [← map_command_statementsOf (names.map .address)]
    exact List.mem_map_of_mem h
  obtain ⟨name, hname, heq⟩ := List.mem_map.mp hcommand
  exact ⟨name, hname, heq.symm⟩

/-- The variables are the names in their order. -/
theorem variableNames_eq (h : AreVariables names) :
    variableNames (statementsOf (names.map .address)) = names := by
  have hused : Statement.used (statementsOf (names.map .address)) = names := by
    have hcommands : Statement.used (statementsOf (names.map .address)) =
        ((statementsOf (names.map .address)).map Statement.command).filterMap
          Command.symbol? := by
      rw [Statement.used, List.filterMap_map]
      apply List.filterMap_congr
      intro statement hstatement
      obtain ⟨name, hname, hcommand⟩ := exists_of_mem hstatement
      simp [hcommand, (h.identifier name hname).isDecimal, Command.symbol?]
    rw [hcommands, map_command_statementsOf, List.filterMap_map]
    exact List.filterMap_some
  have hdeclared : ∀ name, name ∉ Statement.declared (statementsOf (names.map .address)) := by
    intro name hname
    obtain ⟨statement, hstatement, hlabel⟩ := Statement.mem_declared.mp hname
    obtain ⟨other, -, hcommand⟩ := exists_of_mem hstatement
    rw [hlabel] at hcommand
    cases hcommand
  have hall : ∀ name ∈ names,
      (!(Statement.declared (statementsOf (names.map .address))).contains name &&
        !isReserved name) = true := by
    intro name hname
    simp [hdeclared name, h.free name hname]
  rw [variableNames, hused, List.filter_eq_self.mpr hall, eraseDups_of_nodup h.nodup]

theorem exists_labels (h : AreVariables names) :
    ∃ labels, (Labels.ofLines (Line.ofSource (sourceOf (names.map .address)))).result =
      .ok labels := by
  have hreach : Statement.LabelsInReach (statementsOf (names.map .address)) := by
    intro earlier statement later label hsplit hlabel
    have hmem : statement ∈ statementsOf (names.map .address) := by rw [hsplit]; simp
    obtain ⟨name, -, hcommand⟩ := exists_of_mem hmem
    rw [hlabel] at hcommand
    cases hcommand
  obtain ⟨_, labels, -, hlabels, -⟩ := Labels.ofLines_of_faultless (tokens_ne_nil_of_mem _)
    ((faultless_labelFault_iff h.reads).mpr hreach)
  exact ⟨labels, hlabels⟩

/-- The name on a line is the one with the place of the line. -/
theorem exists_of_split (h : AreVariables names) {before after : List Line} {line : Line}
    (hlines : Line.ofSource (sourceOf (names.map .address)) = before ++ line :: after) :
    ∃ name, names[before.length]? = some name ∧
      line.Reads ⟨before.length + 1, .address name⟩ := by
  obtain ⟨earlier, statement, later, hsplit, hbefore, hline, -⟩ :=
    exists_split_of_forall₂ (hlines ▸ h.reads)
  have hat : (statementsOf (names.map .address))[before.length]? = some statement := by
    rw [hsplit, hbefore.length_eq]
    simp
  rw [statementsOf, List.getElem?_map, List.getElem?_zipIdx, List.getElem?_map] at hat
  cases hname : names[before.length]? with
  | none =>
    rw [hname] at hat
    cases hat
  | some name =>
    rw [hname] at hat
    have hstatement : statement = ⟨before.length + 1, .address name⟩ := by
      simpa [Nat.add_comm] using hat.symm
    exact ⟨name, rfl, hstatement ▸ hline⟩

/-- Each name is used first on its own line. -/
theorem number_of_isFirstUse (h : AreVariables names) {before : List Line} {line : Line}
    {index : Nat} {name : String} (hname : names[index]? = some name)
    (hfirst : Line.IsFirstUse (Line.ofSource (sourceOf (names.map .address))) before line name) :
    before.length = index ∧ line.number = index + 1 := by
  obtain ⟨after, hlines⟩ := hfirst.split
  obtain ⟨other, hother, hline⟩ := h.exists_of_split hlines
  have hsame : Command.address other = .address name := hline.command_eq hfirst.loads
  cases hsame
  obtain ⟨hindex, -⟩ := List.getElem?_eq_some_iff.mp hother
  have hplace := (List.getElem?_inj hindex h.nodup).mp (hother.trans hname.symm)
  exact ⟨hplace, by rw [← hline.1, hplace]⟩

/-- The first names all have their addresses. -/
theorem exists_emission (h : AreVariables names) {labels : Labels} {before after : List Line}
    (hlabels : (Labels.ofLines (Line.ofSource (sourceOf (names.map .address)))).result = .ok labels)
    (hlines : Line.ofSource (sourceOf (names.map .address)) = before ++ after)
    (hfew : before.length ≤ 32752) :
    ∃ emission, (Emission.ofLines labels.symbols before).result = .ok emission := by
  obtain ⟨-, statements, hreads, hcollects⟩ :=
    Labels.exists_of_ofLines (tokens_ne_nil_of_mem _) hlabels
  obtain rfl := Statement.eq_of_reads hreads h.reads
  have htracks := Emission.tracks hreads hcollects (isLexeme_of_mem _)
  rw [hlines] at htracks
  have hfaultless : Faultless (fun _ line error =>
      WordFault (statementsOf (names.map .address)) line error) before := by
    intro earlier line later hbefore error hfault
    have hsplit : Line.ofSource (sourceOf (names.map .address)) =
        earlier ++ line :: (later ++ after) := by
      rw [hlines, hbefore]
      simp
    obtain ⟨name, hname, hline⟩ := h.exists_of_split hsplit
    have hvalue := Statement.value_of_getElem? (h.variableNames_eq.symm ▸ hname)
    have hplace := congrArg List.length hbefore
    rw [List.length_append, List.length_cons] at hplace
    have hsmall : value (statementsOf (names.map .address)) name ≤ 32767 := by
      rw [hvalue, variableBase]
      omega
    exact (Statement.WordText.load hsmall).not_wordFault hline.2 error hfault
  obtain ⟨emission, hemission, -⟩ :=
    htracks.of_append.result_of_faultless (Emission.follows_start hcollects) hfaultless
  exact ⟨emission, hemission⟩

end AreVariables

/-! ## Main result -/

/-- What cannot happen while a source is assembled. No command is empty, whether the source is read
    command by command or assembled; no symbol is without an address. Once the labels are known, all
    states have an address for every symbol and keep those that they gave. There are 32752 addresses
    for variables: the next variable is refused on the line that uses it first, unless an earlier line
    is refused. So a larger address is that of a label, and no instruction loads it. -/
theorem assemble_bounds (source : String) :
    (∀ count, let reader := (fun reader : Reader => reader.advance.2)^[count] (.ofSource source)
      reader.hasMore = true → reader.advance.1.result ≠ .ok false ∧
        ∀ number, .emptyCommand number ∉ reader.advance.1.log) ∧
    (∀ number, .emptyCommand number ∉ (assemble source).log) ∧
    (∀ line symbol, (assemble source).result ≠ .error (.unresolved line symbol)) ∧
    (∀ labels, (Labels.ofLines (Line.ofSource source)).result = .ok labels →
      Emission.StaysInBounds labels.symbols (Line.ofSource source) ∧
      ∃ statements, Statement.ofLines (Line.ofSource source) = .ok statements ∧
        (32752 < (variableNames statements).length →
          ∃ name before line, (variableNames statements)[32752]? = some name ∧
            Line.IsFirstUse (Line.ofSource source) before line name ∧
            (∀ emission, (Emission.ofLines labels.symbols before).result = .ok emission →
              (assemble source).result = .error (.addressRange line.number "32768")) ∧
            ∀ error, (Emission.ofLines labels.symbols before).result = .error error →
              (assemble source).result = .error error ∧
                ∃ earlier ∈ before, error.line? = some earlier.number)) ∧
    ∀ program, (assemble source).result = .ok program →
      ∀ name address, program.symbols.get? name = some address → 32767 < address.toNat →
        (∃ line ∈ Line.ofSource source, Command.ofTokens line.tokens = .ok (.label name)) ∧
          ∀ line ∈ Line.ofSource source, Command.ofTokens line.tokens ≠ .ok (.address name) := by
  have hne := tokens_ne_nil_of_mem source
  have hlexeme := isLexeme_of_mem source
  refine ⟨fun count => Reader.advance_of_hasMore rfl, ?_, result_ne_unresolved source, ?_,
    fun program h name address => declared_of_large h⟩
  · intro number hmem
    exact emptyCommand_not_mem_log source number _ hmem rfl
  · intro labels hlabels
    obtain ⟨-, statements, hreads, -⟩ := Labels.exists_of_ofLines hne hlabels
    refine ⟨Emission.staysInBounds hne hlexeme hlabels, statements,
      Statement.ofLines_eq_ok_of_reads hreads, fun hmany => ?_⟩
    have hname := List.getElem?_eq_getElem hmany
    obtain ⟨before, line, hfirst⟩ := Line.exists_isFirstUse hreads
      (Statement.mem_variablesIn.mp (List.getElem_mem hmany)).1
    exact ⟨_, before, line, hname, hfirst,
      result_of_large_variable hne hlexeme hlabels hreads (Nat.le_refl _) hname hfirst⟩

/-- The names `v`, `vv`, `vvv` and so on, one more than there are addresses for variables. -/
theorem assemble_bounds_overflow :
    let names := (List.range 32753).map fun index => String.ofList (List.replicate (index + 1) 'v')
    (assemble (sourceOf (names.map .address))).result = .error (.addressRange 32753 "32768") := by
  intro names
  have hnames : AreVariables names := by
    refine ⟨?_, ?_, ?_⟩
    · refine List.Nodup.map ?_ List.nodup_range
      intro index other heq
      have hlength := congrArg List.length (String.ofList_injective heq)
      simpa using hlength
    · intro name hname
      obtain ⟨index, -, rfl⟩ := List.mem_map.mp hname
      refine ⟨'v', List.replicate index 'v', by simp [List.replicate_succ], by decide, ?_⟩
      intro c hc
      rw [List.eq_of_mem_replicate hc]
      decide
    · intro name hname
      obtain ⟨index, -, rfl⟩ := List.mem_map.mp hname
      have hother : ∀ entry ∈ reservedSymbols, 'v' ∉ entry.1.toList := by decide
      rw [isReserved, List.any_eq_false]
      intro entry hentry heq
      apply hother entry hentry
      rw [eq_of_beq heq]
      simp
  have hcount : names.length = 32753 := by simp [names]
  -- Nothing else is needed of the names, which are too many to be looked at.
  clear_value names
  obtain ⟨labels, hlabels⟩ := hnames.exists_labels
  obtain ⟨-, statements, hstatements, hoverflow⟩ :=
    (assemble_bounds (sourceOf (names.map .address))).2.2.2.1 labels hlabels
  obtain rfl := Statement.eq_of_reads
    (Statement.reads_of_ofLines (tokens_ne_nil_of_mem _) hstatements) hnames.reads
  have hmany : 32752 < (variableNames (statementsOf (names.map .address))).length := by
    rw [hnames.variableNames_eq, hcount]
    decide
  obtain ⟨name, before, line, hname, hfirst, hfits, -⟩ := hoverflow hmany
  rw [hnames.variableNames_eq] at hname
  obtain ⟨hbefore, hline⟩ := hnames.number_of_isFirstUse hname hfirst
  obtain ⟨after, hlines⟩ := hfirst.split
  obtain ⟨emission, hemission⟩ := hnames.exists_emission hlabels hlines (by omega)
  rw [hfits emission hemission, hline]

end Program

end HackAssembler
