/-
  HackAssembler.Proofs.Instruction.Encoding

  When a command has a word and what the word looks like. Loading fails exactly for numbers of more
  than 15 bits; a computation fails at the first of its three mnemonics that has no entry. The text
  of a word is the text of its fields.
-/
import HackAssembler.Instruction.Encoding
import HackAssembler.Proofs.Binary
import HackAssembler.Proofs.Report

namespace HackAssembler

namespace Instruction

/-! ## Mnemonics -/

theorem lookup_eq_none_of_not_mem {width : Nat} {table : List (String × BitVec width)}
    {mnemonic : String} (h : mnemonic ∉ table.map Prod.fst) : table.lookup mnemonic = none := by
  rw [List.lookup_eq_none_iff]
  intro entry hentry
  rw [bne_iff_ne]
  rintro rfl
  exact h (List.mem_map.mpr ⟨entry, hentry, rfl⟩)

theorem exists_lookup_of_mem {width : Nat} {table : List (String × BitVec width)}
    {mnemonic : String} (h : mnemonic ∈ table.map Prod.fst) :
    ∃ field, table.lookup mnemonic = some field := by
  obtain ⟨entry, hentry, rfl⟩ := List.mem_map.mp h
  rw [← Option.isSome_iff_exists, List.lookup_isSome_iff]
  exact ⟨entry, hentry, beq_self_eq_true _⟩

/-- What is found in a table is one of its entries. -/
theorem entry_mem_of_lookup {width : Nat} {table : List (String × BitVec width)} {mnemonic : String}
    {field : BitVec width} (h : table.lookup mnemonic = some field) : (mnemonic, field) ∈ table := by
  obtain ⟨initial, rest, rfl, -⟩ := List.lookup_eq_some_iff.mp h
  simp

theorem mem_of_lookup {width : Nat} {table : List (String × BitVec width)} {mnemonic : String}
    {field : BitVec width} (h : table.lookup mnemonic = some field) :
    mnemonic ∈ table.map Prod.fst :=
  List.mem_map.mpr ⟨_, entry_mem_of_lookup h, rfl⟩

theorem mem_snd_of_lookup {width : Nat} {table : List (String × BitVec width)} {mnemonic : String}
    {field : BitVec width} (h : table.lookup mnemonic = some field) :
    field ∈ table.map Prod.snd :=
  List.mem_map.mpr ⟨_, entry_mem_of_lookup h, rfl⟩

/-! ## Loading -/

theorem load_of_le {value : Nat} (h : value ≤ 32767) :
    load value = .ok (0b0#1 ++ BitVec.ofNat 15 value) := by
  rw [load, fit, Binary.field?_of_lt (by omega)]
  rfl

theorem load_of_lt {value : Nat} (h : 32767 < value) : load value = .error (.outOfRange value 15) := by
  rw [load, fit, Binary.field?_of_le (by omega)]
  rfl

theorem text_load (value : Nat) :
    Binary.text (0b0#1 ++ BitVec.ofNat 15 value) = "0" ++ Binary.text (BitVec.ofNat 15 value) := by
  rw [Binary.text_append _ _ (by decide) (by decide)]
  rfl

/-! ## Computing -/

/-- The word of a computation whose fields are known. -/
def computeWord (comp : BitVec 7) (dest jump : BitVec 3) : MachineWord :=
  0b111#3 ++ comp ++ dest ++ jump

theorem compute_of_lookup {dest jump : Option String} {comp : String} {compField : BitVec 7}
    {destField jumpField : BitVec 3} (hcomp : compTable.lookup comp = some compField)
    (hdest : destTable.lookup (dest.getD "") = some destField)
    (hjump : jumpTable.lookup (jump.getD "") = some jumpField) :
    compute dest comp jump = .ok (computeWord compField destField jumpField) := by
  rw [compute, Instruction.compField, hcomp, Instruction.destField, hdest, Instruction.jumpField,
    hjump]
  rfl

/-- A computation has a word only if its mnemonics are in the tables. -/
theorem exists_lookup_of_compute {dest jump : Option String} {comp : String} {word : MachineWord}
    (h : compute dest comp jump = .ok word) :
    ∃ compField destField jumpField, compTable.lookup comp = some compField ∧
      destTable.lookup (dest.getD "") = some destField ∧
      jumpTable.lookup (jump.getD "") = some jumpField ∧
      word = computeWord compField destField jumpField := by
  obtain ⟨comp', hcomp, h⟩ := except_bind_eq_ok_iff.mp h
  obtain ⟨dest', hdest, h⟩ := except_bind_eq_ok_iff.mp h
  obtain ⟨jump', hjump, h⟩ := except_bind_eq_ok_iff.mp h
  rw [Instruction.compField] at hcomp
  rw [Instruction.destField] at hdest
  rw [Instruction.jumpField] at hjump
  -- A field that is not found is an error.
  split at hcomp
  · split at hdest
    · split at hjump
      · cases hcomp
        cases hdest
        cases hjump
        cases h
        exact ⟨_, _, _, ‹_›, ‹_›, ‹_›, rfl⟩
      · cases hjump
    · cases hdest
  · cases hcomp

theorem compute_of_unknown_comp {dest jump : Option String} {comp : String}
    (h : comp ∉ compTable.map Prod.fst) :
    compute dest comp jump = .error (.unknownComputation comp) := by
  rw [compute, Instruction.compField, lookup_eq_none_of_not_mem h]
  rfl

theorem compute_of_unknown_dest {jump : Option String} {dest comp : String}
    (hcomp : comp ∈ compTable.map Prod.fst) (h : dest ∉ destTable.map Prod.fst) :
    compute (some dest) comp jump = .error (.unknownDestination dest) := by
  obtain ⟨field, hfield⟩ := exists_lookup_of_mem hcomp
  rw [compute, Instruction.compField, hfield, Instruction.destField, Option.getD_some,
    lookup_eq_none_of_not_mem h]
  rfl

theorem compute_of_unknown_jump {dest : Option String} {comp jump : String}
    (hcomp : comp ∈ compTable.map Prod.fst) (hdest : dest.getD "" ∈ destTable.map Prod.fst)
    (h : jump ∉ jumpTable.map Prod.fst) :
    compute dest comp (some jump) = .error (.unknownJump jump) := by
  obtain ⟨compField, hcompField⟩ := exists_lookup_of_mem hcomp
  obtain ⟨destField, hdestField⟩ := exists_lookup_of_mem hdest
  rw [compute, Instruction.compField, hcompField, Instruction.destField, hdestField,
    Instruction.jumpField, Option.getD_some, lookup_eq_none_of_not_mem h]
  rfl

theorem text_computeWord (comp : BitVec 7) (dest jump : BitVec 3) :
    Binary.text (computeWord comp dest jump) =
      "111" ++ Binary.text comp ++ Binary.text dest ++ Binary.text jump := by
  rw [computeWord, Binary.text_append _ _ (by decide) (by decide),
    Binary.text_append _ _ (by decide) (by decide), Binary.text_append _ _ (by decide) (by decide)]
  rfl

/-- The empty mnemonic of a part that is left out is in the table, so only a part that is there can
    be unknown. -/
theorem getD_mem {width : Nat} {table : List (String × BitVec width)} {part : Option String}
    (hempty : "" ∈ table.map Prod.fst) (h : ∀ name ∈ part, name ∈ table.map Prod.fst) :
    part.getD "" ∈ table.map Prod.fst := by
  cases part with
  | none => exact hempty
  | some name => exact h name rfl

theorem empty_mem_destTable : "" ∈ destTable.map Prod.fst := by decide

theorem empty_mem_jumpTable : "" ∈ jumpTable.map Prod.fst := by decide

end Instruction

end HackAssembler
