/-
  HackAssembler.Proofs.Program.Literal

  Numbers that are loaded. A literal may have any number of digits and of leading zeros; what counts
  is its value. It is loaded exactly if it has 15 bits. Otherwise the source is rejected, with the
  value if that has 32 bits and with the digits as they were written if it has more. A literal is
  never a symbol, so no table has an address for one.
-/
import HackAssembler.Proofs.Program.Bounds
import HackAssembler.Proofs.Program.Placement

namespace HackAssembler

open Text (isDecimal decimalValue)

/-- A word of a zero and then a number in 15 binary digits. -/
def Word.LoadsNumber (word : Word) (number : Nat) : Prop :=
  ∃ digits, word.bitText.toList = '0' :: digits ∧ digits.length = 15 ∧
    (∀ c ∈ digits, c = '0' ∨ c = '1') ∧ Binary.ofDigits digits = number

/-- A line of a source loads a number that is given in decimal digits. -/
structure Line.LoadsLiteral (line : Line) (source digits : String) : Prop where
  mem : line ∈ Line.ofSource source
  loads : Command.ofTokens line.tokens = .ok (.address digits)
  isDecimal : isDecimal digits = true

/-- No name of digits alone has an address. -/
def SymbolTable.HoldsNoLiteral (table : SymbolTable) : Prop :=
  ∀ name, isDecimal name = true → table.get? name = none

/-! ## Numbers in a program -/

namespace Statement

variable {statements : List Statement} {digits : String}

theorem WordText.loadsNumber {word : Word} (h : WordText statements (.address digits) word.bitText)
    (hdecimal : isDecimal digits = true) :
    decimalValue digits.toList ≤ 32767 ∧ word.LoadsNumber (decimalValue digits.toList) := by
  generalize htext : word.bitText = text at h
  cases h with
  | load hfits =>
    rw [value_of_isDecimal statements hdecimal] at hfits htext
    -- The number has 15 bits, so its field cuts nothing off.
    refine ⟨hfits, Binary.digits 15 (decimalValue digits.toList), ?_, Binary.length_digits _ _,
      Binary.digits_eq_zero_or_one _ _, ?_⟩
    · rw [htext, String.toList_append, Binary.toList_text _ (by decide), BitVec.toNat_ofNat,
        Nat.mod_eq_of_lt (by omega)]
      rfl
    · rw [Binary.ofDigits_digits, BitVec.toNat_ofNat, Nat.mod_eq_of_lt (by omega)]

/-- The value of a literal is reported as long as it is a 32-bit number. -/
theorem valueText_of_isDecimal (statements : List Statement) (hdecimal : isDecimal digits = true) :
    valueText statements digits =
      if decimalValue digits.toList < 2 ^ 32 then toString (decimalValue digits.toList)
      else digits := by
  rw [valueText, value_of_isDecimal statements hdecimal]
  have hbound : Emission.literalBound = 2 ^ 32 := rfl
  by_cases hsmall : decimalValue digits.toList < 2 ^ 32
  · rw [if_pos hsmall, if_neg (by omega)]
  · rw [if_neg hsmall, if_pos ⟨hdecimal, by omega⟩]

end Statement

namespace Line.LoadsLiteral

variable {line : Line} {source digits : String}

/-- The word of the line is the only one with its number. -/
theorem exists_word (h : line.LoadsLiteral source digits) {program : Program}
    (hprogram : (Program.assemble source).result = .ok program) :
    decimalValue digits.toList ≤ 32767 ∧ ∃ word ∈ program.words,
      word.LoadsNumber (decimalValue digits.toList) ∧ word.line = line.number ∧
      ∀ other ∈ program.words, other.line = line.number → other = word := by
  obtain ⟨statements, haccept, hmeans⟩ := Program.acceptance_of_assemble hprogram
  have hlines := hmeans.forall₂_lines haccept.reads
  have hinstruction : line.holdsInstruction = true := by
    rw [holdsInstruction, h.loads]
    rfl
  obtain ⟨word, hword, entry, hreads, hbelongs⟩ :=
    exists_of_forall₂_of_mem hlines.flip (List.mem_filter.mpr ⟨h.mem, hinstruction⟩)
  have hcommand : entry.1.command = .address digits := hreads.command_eq h.loads
  have hnumber : word.line = line.number := hbelongs.line.trans hreads.1
  obtain ⟨hfits, hloads⟩ := Statement.WordText.loadsNumber (hcommand ▸ hbelongs.bits) h.isDecimal
  -- Words with one line number are one word, since each has a line of its own.
  exact ⟨hfits, word, hword, hloads, hnumber, fun other hother heq =>
    List.inj_on_of_nodup_map (Program.nodup_map_line hprogram) hother hword
      (heq.trans hnumber.symm)⟩

/-- A literal that is too large is the fault of its line. -/
theorem wordFault (h : line.LoadsLiteral source digits)
    (hlarge : 32767 < decimalValue digits.toList) (statements : List Statement) :
    WordFault statements line (.addressRange line.number
      (if decimalValue digits.toList < 2 ^ 32 then toString (decimalValue digits.toList)
        else digits)) := by
  rw [← Statement.valueText_of_isDecimal statements h.isDecimal]
  refine .addressRange h.loads ?_
  rwa [Statement.value_of_isDecimal statements h.isDecimal]

/-- A literal that is not too large is no fault. -/
theorem not_rejection (h : line.LoadsLiteral source digits)
    (hsmall : decimalValue digits.toList ≤ 32767) (error : Error) :
    ¬ Program.Rejection (Line.ofSource source) line error := by
  intro hline
  -- Every other fault is that of another command.
  have hcommand {command : Command} (hread : Command.ofTokens line.tokens = .ok command) :
      command = .address digits := by
    rw [h.loads] at hread
    exact (Except.ok.inj hread).symm
  cases hline with
  | labels first =>
    obtain ⟨before, after, -, -, hfault⟩ := first
    cases hfault with
    | malformed hrefused =>
      rw [h.loads] at hrefused
      cases hrefused
    | outOfReach hdeclares => cases hcommand hdeclares
  | @words statements _ _ first =>
    obtain ⟨before, after, -, -, hfault⟩ := first
    cases hfault with
    | addressRange hloads hlarge =>
      cases hcommand hloads
      rw [Statement.value_of_isDecimal statements h.isDecimal] at hlarge
      omega
    | computation hcomputes => cases hcommand hcomputes
    | destination hcomputes => cases hcommand hcomputes
    | condition hcomputes => cases hcommand hcomputes

end Line.LoadsLiteral

/-! ## Tables without literals -/

/-- No literal is among the labels of any lines. -/
theorem Labels.holdsNoLiteral {lines : List Line} {labels : Labels}
    (hne : ∀ line ∈ lines, line.tokens ≠ [])
    (hlexeme : ∀ line ∈ lines, ∀ token ∈ line.tokens, token.IsLexeme)
    (h : (ofLines lines).result = .ok labels) : labels.symbols.HoldsNoLiteral := by
  obtain ⟨-, statements, hreads, hcollects⟩ := exists_of_ofLines hne h
  intro name hdecimal
  rw [hcollects.symbols]
  cases hfixed : Statement.fixedAddress? statements name with
  | none => rfl
  | some address =>
    rw [Program.isDecimal_of_fixedAddress? hreads hlexeme hfixed] at hdecimal
    cases hdecimal

namespace Emission

variable {emission next : Emission} {line : Line} {symbol : String}

theorem holdsNoLiteral_of_allocate (h : emission.symbols.HoldsNoLiteral) {number : Nat}
    (hdecimal : isDecimal symbol = false)
    (hnext : (emission.allocate number symbol).result = .ok next) :
    next.symbols.HoldsNoLiteral := by
  rcases allocate_cases hnext with rfl | ⟨-, hsymbols, -⟩
  · exact h
  · intro name hname
    have hne : symbol ≠ name := by
      rintro rfl
      rw [hdecimal] at hname
      cases hname
    rw [hsymbols, SymbolTable.get?_insert, if_neg hne, h name hname]

/-- Only what is no literal is looked up in the middle of a line. -/
theorem holdsNoLiteral_of_mem_between (h : emission.symbols.HoldsNoLiteral)
    (hnext : next ∈ emission.between line) : next.symbols.HoldsNoLiteral := by
  unfold between at hnext
  split at hnext
  · split at hnext
    · cases hnext
    · rename_i hdecimal
      split at hnext
      · rename_i middle hmiddle
        obtain rfl := List.mem_singleton.mp hnext
        exact holdsNoLiteral_of_allocate h (by simpa using hdecimal) hmiddle
      · cases hnext
  · cases hnext

end Emission

namespace Program

theorem Means.holdsNoLiteral {lines : List Line} {statements : List Statement} {program : Program}
    (hmeans : Means statements program) (hreads : List.Forall₂ Line.Reads lines statements)
    (hlexeme : ∀ line ∈ lines, ∀ token ∈ line.tokens, token.IsLexeme) :
    program.symbols.HoldsNoLiteral := by
  intro name hdecimal
  rw [← Option.not_isSome_iff_eq_none, hmeans.bound]
  have hother : ¬ isDecimal name = false := by simp [hdecimal]
  rintro (hreserved | hdeclared | hvariable)
  · exact hother (isDecimal_of_isReserved hreserved)
  · exact hother (isDecimal_of_mem_declared hreads hlexeme hdeclared)
  · exact hother (Statement.mem_used.mp (Statement.mem_variablesIn.mp hvariable).1).1

/-! ## Main result -/

/-- Decimal literals are read exactly, whatever their length. If a source is assembled, then the
    value of each of its literals has 15 bits, and it is what the word of its line loads. A larger
    value is the error of the source if labels can be collected and words be emitted up to the line;
    a value of 15 bits is never an error. No table has an address for a name of digits: not that of
    the labels behind the first lines, none while words are emitted, and not that of the program. -/
theorem assemble_literals (source : String) :
    (∀ line digits, line.LoadsLiteral source digits →
      (∀ program, (assemble source).result = .ok program →
        decimalValue digits.toList ≤ 32767 ∧ ∃ word ∈ program.words,
          word.LoadsNumber (decimalValue digits.toList) ∧ word.line = line.number ∧
          ∀ other ∈ program.words, other.line = line.number → other = word) ∧
      (32767 < decimalValue digits.toList →
        ∀ labels, (Labels.ofLines (Line.ofSource source)).result = .ok labels →
        ∀ before after, Line.ofSource source = before ++ line :: after →
        ∀ emission, (Emission.ofLines labels.symbols before).result = .ok emission →
          (assemble source).result = .error (.addressRange line.number
            (if decimalValue digits.toList < 2 ^ 32 then toString (decimalValue digits.toList)
              else digits))) ∧
      (decimalValue digits.toList ≤ 32767 →
        ∀ error, (assemble source).result = .error error → error.line? ≠ some line.number)) ∧
    (∀ before labels, before <+: Line.ofSource source →
      (Labels.ofLines before).result = .ok labels → labels.symbols.HoldsNoLiteral) ∧
    (∀ labels, (Labels.ofLines (Line.ofSource source)).result = .ok labels →
      ∀ state ∈ (Emission.start labels.symbols).states (Line.ofSource source),
        state.symbols.HoldsNoLiteral) ∧
    ∀ program, (assemble source).result = .ok program → program.symbols.HoldsNoLiteral := by
  have hne := tokens_ne_nil_of_mem source
  have hlexeme := isLexeme_of_mem source
  refine ⟨fun line digits hline => ⟨fun program => hline.exists_word, ?_, ?_⟩, ?_, ?_, ?_⟩
  · intro hlarge labels hlabels before after hlines emission hemission
    obtain ⟨-, statements, hreads, -⟩ := Labels.exists_of_ofLines hne hlabels
    exact result_ofLines_of_wordFault hne hlexeme hlabels hreads hlines hemission
      (hline.wordFault hlarge statements)
  · intro hsmall error herror hnumber
    obtain ⟨place, hplace⟩ := rejection_of_assemble herror
    -- No other line has the number, so the literal itself would be at fault.
    have hsame : place = line := by
      refine Line.eq_of_number_eq hline.mem hplace.mem ?_
      rw [hplace.line?] at hnumber
      exact Option.some.inj hnumber
    exact hline.not_rejection hsmall error (hsame ▸ hplace)
  · intro before labels hbefore hlabels
    exact Labels.holdsNoLiteral (fun line hline => hne line (hbefore.subset hline))
      (fun line hline => hlexeme line (hbefore.subset hline)) hlabels
  · intro labels hlabels
    exact Emission.forall_mem_states Emission.holdsNoLiteral_of_mem_between
      (Labels.holdsNoLiteral hne hlexeme hlabels) _
  · intro program hprogram
    obtain ⟨statements, haccept, hmeans⟩ := acceptance_of_assemble hprogram
    exact hmeans.holdsNoLiteral haccept.reads hlexeme

/-- A number with leading zeros, and then one of 33 bits. -/
theorem assemble_literals_long :
    (assemble "@000000000000007\n@04294967296").result =
      .error (.addressRange 2 "04294967296") := by
  obtain ⟨hliterals, -⟩ := assemble_literals "@000000000000007\n@04294967296"
  have hlines : Line.ofSource "@000000000000007\n@04294967296" =
      [⟨1, [.operator .atSign, .number "000000000000007"]⟩] ++
        [⟨2, [.operator .atSign, .number "04294967296"]⟩] := by
    decide +kernel
  obtain ⟨-, hlarge, -⟩ := hliterals ⟨2, [.operator .atSign, .number "04294967296"]⟩ "04294967296"
    ⟨by rw [hlines]; simp, by decide +kernel, by decide +kernel⟩
  have hfirst : ((Labels.ofLines (Line.ofSource "@000000000000007\n@04294967296")).result >>=
      fun labels => (Emission.ofLines labels.symbols
        [⟨1, [.operator .atSign, .number "000000000000007"]⟩]).result).isOk = true := by
    decide +kernel
  obtain ⟨emission, hrun⟩ := exists_eq_ok_of_isOk hfirst
  obtain ⟨labels, hlabels, hemission⟩ := except_bind_eq_ok_iff.mp hrun
  rw [hlarge (by decide +kernel) labels hlabels _ _ hlines emission hemission,
    if_neg (by decide +kernel)]

end Program

end HackAssembler
