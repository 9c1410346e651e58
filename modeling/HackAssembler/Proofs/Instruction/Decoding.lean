/-
  HackAssembler.Proofs.Instruction.Decoding

  Words that are taken apart again. The fields of a word that was put together are the ones it was
  put together from, every field of a table has a mnemonic that leads back to it, and the mnemonics
  can be written in a source. `IsWordText` says which texts are words of instructions.
-/
import HackAssembler.Instruction.Decoding
import HackAssembler.Proofs.Command.Text
import HackAssembler.Proofs.Instruction.Encoding
import HackAssembler.Proofs.Text.Decimal

namespace HackAssembler

namespace Instruction

/-! ## Fields -/

theorem loadedValue_append (value : BitVec 15) : loadedValue (0b0#1 ++ value) = value :=
  BitVec.extractLsb'_append_eq_right

theorem msb_append (value : BitVec 15) : (0b0#1 ++ value : MachineWord).msb = false :=
  BitVec.msb_append (x := 0b0#1) (y := value)

section computeWord

variable (comp : BitVec 7) (dest jump : BitVec 3)

theorem jumpBits_computeWord : jumpBits (computeWord comp dest jump) = jump :=
  BitVec.extractLsb'_append_eq_right

theorem destBits_computeWord : destBits (computeWord comp dest jump) = dest := by
  rw [destBits, computeWord, BitVec.extractLsb'_append_eq_of_le (by omega)]
  exact BitVec.extractLsb'_append_eq_right

theorem compBits_computeWord : compBits (computeWord comp dest jump) = comp := by
  rw [compBits, computeWord, BitVec.extractLsb'_append_eq_of_le (by omega),
    BitVec.extractLsb'_append_eq_of_le (by omega)]
  exact BitVec.extractLsb'_append_eq_right

theorem opening_computeWord : (computeWord comp dest jump).extractLsb' 13 3 = 0b111 := by
  rw [computeWord, BitVec.extractLsb'_append_eq_of_le (by omega),
    BitVec.extractLsb'_append_eq_of_le (by omega), BitVec.extractLsb'_append_eq_of_le (by omega)]
  exact BitVec.extractLsb'_eq_self

theorem msb_computeWord : (computeWord comp dest jump).msb = true := by
  have hmsb := congrArg BitVec.msb (opening_computeWord comp dest jump)
  rw [BitVec.msb_extractLsb'] at hmsb
  exact hmsb

end computeWord

/-! ## Mnemonics of fields -/

theorem lookup_of_mem {width : Nat} {table : List (String × BitVec width)}
    (hnodup : (table.map Prod.fst).Nodup) {mnemonic : String} {field : BitVec width}
    (h : (mnemonic, field) ∈ table) : table.lookup mnemonic = some field := by
  induction table with
  | nil => cases h
  | cons entry table ih =>
    obtain ⟨name, bits⟩ := entry
    rw [List.map_cons, List.nodup_cons] at hnodup
    rw [List.lookup_cons]
    rcases List.mem_cons.mp h with heq | hmem
    · cases heq
      rw [beq_self_eq_true]
    · have hne : (mnemonic == name) = false := by
        rw [beq_eq_false_iff_ne]
        rintro rfl
        exact hnodup.1 (List.mem_map.mpr ⟨_, hmem, rfl⟩)
      rw [hne]
      exact ih hnodup.2 hmem

/-- A field of a table has a mnemonic, and the mnemonic has the field. -/
theorem exists_mnemonic? {width : Nat} {table : List (String × BitVec width)}
    (hnodup : (table.map Prod.fst).Nodup) {field : BitVec width}
    (h : field ∈ table.map Prod.snd) :
    ∃ mnemonic, mnemonic? table field = some mnemonic ∧ table.lookup mnemonic = some field := by
  obtain ⟨entry, hmem, hentry⟩ := List.mem_map.mp h
  cases hfind : table.find? (fun entry => entry.2 == field) with
  | none =>
    have hnot := List.find?_eq_none.mp hfind entry hmem
    simp [hentry] at hnot
  | some found =>
    obtain ⟨mnemonic, bits⟩ := found
    have hbits : bits = field := by
      have hfound := List.find?_some hfind
      exact eq_of_beq hfound
    refine ⟨mnemonic, by rw [mnemonic?, hfind]; rfl, ?_⟩
    rw [← hbits]
    exact lookup_of_mem hnodup (List.mem_of_find?_eq_some hfind)

theorem mem_destTable (field : BitVec 3) : field ∈ destTable.map Prod.snd := by
  revert field
  decide

theorem mem_jumpTable (field : BitVec 3) : field ∈ jumpTable.map Prod.snd := by
  revert field
  decide

theorem getD_partOf (mnemonic : String) : (partOf mnemonic).getD "" = mnemonic := by
  unfold partOf
  split
  · rename_i h
    rw [h]
    rfl
  · rfl

/-! ## Mnemonics in a source -/

theorem exists_isComp_of_mem {comp : String} (h : comp ∈ compTable.map Prod.fst) :
    ∃ tokens, IsComp false tokens comp ∧ ∀ token ∈ tokens, token.IsLexeme := by
  have hread : ∀ name ∈ compTable.map Prod.fst,
      Command.ofTokens (Token.scan name.toList) = .ok (.compute none name none) := by
    decide +kernel
  have hlexeme : ∀ token ∈ Token.scan comp.toList, token.IsLexeme := Token.isLexeme_of_mem_scan
  generalize htokens : Token.scan comp.toList = tokens at hlexeme
  have hderives := Command.derives_of_ofTokens (htokens ▸ hread comp h)
  cases hderives with
  | @compute taken after _ _ hcomp hjump =>
    exact ⟨taken, hcomp, fun token htoken => hlexeme token (List.mem_append_left _ htoken)⟩

/-- The mnemonic of a destination or of a jump condition is a name. -/
theorem isLexeme_of_mem_mnemonics {name : String}
    (h : name ∈ destTable.map Prod.fst ++ jumpTable.map Prod.fst) (hne : name ≠ "") :
    (Token.identifier name).IsLexeme := by
  have hscan : ∀ name ∈ destTable.map Prod.fst ++ jumpTable.map Prod.fst, name ≠ "" →
      Token.scan name.toList = [.identifier name] := by
    decide +kernel
  have hmem : Token.identifier name ∈ Token.scan name.toList := by simp [hscan name h hne]
  exact Token.isLexeme_of_mem_scan _ hmem

theorem exists_isJump_partOf {jump : String} (h : jump ∈ jumpTable.map Prod.fst) :
    ∃ tokens, IsJump tokens (partOf jump) ∧ ∀ token ∈ tokens, token.IsLexeme := by
  unfold partOf
  split
  · exact ⟨[], .none, by simp⟩
  · rename_i hne
    have hlexeme := isLexeme_of_mem_mnemonics (List.mem_append_right _ h) hne
    exact ⟨_, .some jump, by simp [hlexeme]⟩

/-- A computation by its mnemonics can be written in a source. -/
theorem exists_written_compute {dest comp jump : String} (hdest : dest ∈ destTable.map Prod.fst)
    (hcomp : comp ∈ compTable.map Prod.fst) (hjump : jump ∈ jumpTable.map Prod.fst) :
    ∃ tokens, Command.Written tokens (.compute (partOf dest) comp (partOf jump)) := by
  obtain ⟨taken, htaken, hlexeme⟩ := exists_isComp_of_mem hcomp
  obtain ⟨after, hafter, hlexeme'⟩ := exists_isJump_partOf hjump
  have hrest : ∀ token ∈ taken ++ after, token.IsLexeme := by
    intro token htoken
    rcases List.mem_append.mp htoken with htoken | htoken
    · exact hlexeme token htoken
    · exact hlexeme' token htoken
  -- Without a destination there is no `=` either.
  unfold partOf
  split
  · exact Command.exists_written (.compute htaken hafter) hrest
  · rename_i hne
    apply Command.exists_written (.assign (htaken.mono) hafter)
    intro token htoken
    rcases List.mem_cons.mp htoken with rfl | htoken
    · exact isLexeme_of_mem_mnemonics (List.mem_append_left _ hdest) hne
    · rcases List.mem_cons.mp htoken with rfl | htoken
      · trivial
      · exact hrest token htoken

/-- A number can be written in a source. -/
theorem exists_written_address (value : Nat) :
    ∃ tokens, Command.Written tokens (.address (toString value)) := by
  apply Command.exists_written (.address (.number (toString value)))
  intro token htoken
  simp only [List.mem_cons, List.not_mem_nil, or_false] at htoken
  rcases htoken with rfl | rfl
  · trivial
  · exact ⟨Text.toString_ne_empty value, Text.isDigit_of_mem_toString⟩

/-! ## Decoding -/

theorem decode?_append (value : BitVec 15) :
    decode? (0b0#1 ++ value) = some (.address (toString value.toNat)) := by
  rw [decode?, if_pos (msb_append value), loadedValue_append]

theorem decode?_computeWord {comp : BitVec 7} {dest jump : BitVec 3}
    {compName destName jumpName : String} (hcomp : mnemonic? compTable comp = some compName)
    (hdest : mnemonic? destTable dest = some destName)
    (hjump : mnemonic? jumpTable jump = some jumpName) :
    decode? (computeWord comp dest jump) =
      some (.compute (partOf destName) compName (partOf jumpName)) := by
  rw [decode?, if_neg (by rw [msb_computeWord]; decide), if_pos (opening_computeWord comp dest jump),
    compBits_computeWord, destBits_computeWord, jumpBits_computeWord, hcomp, hdest, hjump]
  rfl

/-! ## Texts of words -/

/-- Sixteen binary digits that begin with a zero, or with three ones and the field of a
    computation. -/
structure IsWordText (text : String) : Prop where
  length : text.length = 16
  binary : ∀ c ∈ text.toList, c = '0' ∨ c = '1'
  opening : ['0'] <+: text.toList ∨
    ∃ entry ∈ compTable, ("111" ++ Binary.text entry.2).toList <+: text.toList

theorem isWordText_append (value : BitVec 15) : IsWordText (Binary.text (0b0#1 ++ value)) where
  length := by
    rw [← String.length_toList, Binary.toList_text _ (by decide), Binary.length_digits]
  binary := by
    rw [Binary.toList_text _ (by decide)]
    exact Binary.digits_eq_zero_or_one _ _
  opening := by
    refine .inl ⟨(Binary.text value).toList, ?_⟩
    rw [Binary.text_append _ _ (by decide) (by decide), String.toList_append]
    rfl

theorem isWordText_computeWord {comp : BitVec 7} (h : comp ∈ compTable.map Prod.snd)
    (dest jump : BitVec 3) : IsWordText (Binary.text (computeWord comp dest jump)) where
  length := by
    rw [← String.length_toList, Binary.toList_text _ (by decide), Binary.length_digits]
  binary := by
    rw [Binary.toList_text _ (by decide)]
    exact Binary.digits_eq_zero_or_one _ _
  opening := by
    obtain ⟨entry, hmem, rfl⟩ := List.mem_map.mp h
    refine .inr ⟨entry, hmem, (Binary.text dest ++ Binary.text jump).toList, ?_⟩
    rw [text_computeWord, ← String.toList_append, ← String.append_assoc]

/-- Fifteen digits behind a zero are those of a number that is loaded. -/
theorem exists_load_of_digits {digits : List Char} (hlength : digits.length = 15)
    (h : ∀ c ∈ digits, c = '0' ∨ c = '1') :
    ∃ value : BitVec 15, (Binary.text (0b0#1 ++ value)).toList = ['0'] ++ digits := by
  obtain ⟨value, hvalue⟩ := Binary.exists_text hlength (by decide) h
  refine ⟨value, ?_⟩
  rw [Binary.text_append _ _ (by decide) (by decide), String.toList_append, hvalue]
  rfl

/-- Six digits behind the field of a computation are those of a destination and a condition. -/
theorem exists_compute_of_digits (comp : BitVec 7) {digits : List Char}
    (hlength : digits.length = 6) (h : ∀ c ∈ digits, c = '0' ∨ c = '1') :
    ∃ dest jump : BitVec 3,
      (Binary.text (computeWord comp dest jump)).toList =
        ("111" ++ Binary.text comp).toList ++ digits := by
  have hwidth : digits.length = 3 + 3 := hlength
  obtain ⟨dest, jump, hdigits⟩ := Binary.exists_text_append hwidth (by decide) (by decide) h
  refine ⟨dest, jump, ?_⟩
  rw [text_computeWord, String.toList_append, String.toList_append, hdigits, List.append_assoc]

/-- A text of a word is the text of a word that loads a number or of one that computes. -/
theorem IsWordText.exists_word {text : String} (h : IsWordText text) :
    (∃ value : BitVec 15, text = Binary.text (0b0#1 ++ value)) ∨
      ∃ comp ∈ compTable.map Prod.snd, ∃ dest jump : BitVec 3,
        text = Binary.text (computeWord comp dest jump) := by
  have hlength : text.toList.length = 16 := by rw [String.length_toList, h.length]
  have hbinary := h.binary
  -- The opening decides the kind of the word, and its length the number of digits behind it.
  rcases h.opening with ⟨rest, hrest⟩ | ⟨entry, hmem, rest, hrest⟩
  · rw [← hrest] at hbinary hlength
    rw [List.length_append, List.length_singleton] at hlength
    have hdigits : rest.length = 15 := by omega
    obtain ⟨value, hvalue⟩ := exists_load_of_digits hdigits
      fun c hc => hbinary c (List.mem_append_right _ hc)
    exact .inl ⟨value, String.toList_injective (by rw [hvalue, hrest])⟩
  · have hcode : ("111" ++ Binary.text entry.2).toList.length = 10 := by
      rw [String.toList_append, List.length_append, Binary.toList_text _ (by decide),
        Binary.length_digits]
      rfl
    rw [← hrest] at hbinary hlength
    rw [List.length_append, hcode] at hlength
    have hdigits : rest.length = 6 := by omega
    obtain ⟨dest, jump, hword⟩ := exists_compute_of_digits entry.2 hdigits
      fun c hc => hbinary c (List.mem_append_right _ hc)
    exact .inr ⟨entry.2, List.mem_map.mpr ⟨entry, hmem, rfl⟩, dest, jump,
      String.toList_injective (by rw [hword, hrest])⟩

end Instruction

end HackAssembler
