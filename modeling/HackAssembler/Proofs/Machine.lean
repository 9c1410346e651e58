/-
  HackAssembler.Proofs.Machine

  What an encoded computation does on the machine is what its mnemonics say. The arithmetic unit has
  an adder, an "and" and inverters, and no subtraction and no "or"; the codes of the table make these
  out of inverted words. So there is one identity of 16-bit words behind each kind of code, and with
  the identities every row of the three tables is right for all values of the registers.
-/
import HackAssembler.Machine
import HackAssembler.Proofs.Instruction.Decoding

namespace HackAssembler

namespace Machine

open Instruction

/-! ## Inverted words

The word of sixteen ones is what the unit has instead of an input that it takes as zero and
inverts. -/

section Inversion

variable (x y : BitVec 16)

/-- Adding sixteen ones counts down. -/
theorem add_ones : x + 65535#16 = x - 1#16 := by
  have hones : 65535#16 = -1#16 := by decide
  rw [hones, BitVec.sub_eq_add_neg]

/-- Inverting what was counted down changes the sign. -/
theorem not_sub_one : ~~~(x - 1#16) = -x := by
  rw [BitVec.not_sub_eq_not_add, BitVec.neg_eq_not_add]

/-- Changing the sign of what was inverted counts up. -/
theorem neg_not : -(~~~x) = x + 1#16 := by
  rw [BitVec.neg_eq_not_add, BitVec.not_not]

/-- Adding between two inversions subtracts. -/
theorem not_not_add : ~~~(~~~x + y) = x - y := by
  rw [BitVec.not_add_eq_not_neg, BitVec.not_not]

theorem not_add_not : ~~~(x + ~~~y) = y - x := by
  rw [BitVec.add_comm, not_not_add]

theorem and_ones : x &&& 65535#16 = x := BitVec.and_allOnes

/-- An "and" between inversions is an "or". -/
theorem not_and_not : ~~~(~~~x &&& ~~~y) = x ||| y := by
  rw [BitVec.not_and, BitVec.not_not, BitVec.not_not]

end Inversion

/-! ## Computations -/

/-- The field of an expression computes its value. -/
theorem expression?_of_mem_compTable : ∀ entry ∈ compTable, ∀ registers : Registers,
    expression? registers entry.1.toList = some (compute entry.2 registers) := by
  intro entry hentry registers
  -- The word of ones is put second, as in the identities.
  have hadd (y : BitVec 16) : 65535#16 + y = y + 65535#16 := BitVec.add_comm _ _
  have hand (y : BitVec 16) : 65535#16 &&& y = y &&& 65535#16 := BitVec.and_comm _ _
  revert entry
  simp only [compTable, List.forall_mem_cons]
  simp [expression?, atom?, compute, usesMemory, Control.ofField, Control.output,
    Control.condition, hadd, hand, add_ones, not_sub_one, neg_not, not_not_add,
    not_add_not, and_ones, not_and_not]

/-- The memory cell is the second input exactly if an expression names it. -/
theorem usesMemory_iff_of_mem_compTable :
    ∀ entry ∈ compTable, usesMemory entry.2 = true ↔ 'M' ∈ entry.1.toList := by
  decide +kernel

/-! ## Destinations -/

/-- There is one bit for each register, and it is set if the destination names the register. -/
theorem getLsbD_iff_of_mem_destTable : ∀ entry ∈ destTable,
    (entry.2.getLsbD 2 = true ↔ 'A' ∈ entry.1.toList) ∧
      (entry.2.getLsbD 1 = true ↔ 'D' ∈ entry.1.toList) ∧
      (entry.2.getLsbD 0 = true ↔ 'M' ∈ entry.1.toList) := by
  decide +kernel

/-! ## Jump conditions -/

/-- Every value is below, equal to or above zero, and the condition has one bit for each. -/
theorem jumps_eq {field : BitVec 3} {holds : Int → Bool}
    (hbelow : ∀ value < 0, holds value = field.getLsbD 2) (hequal : holds 0 = field.getLsbD 1)
    (habove : ∀ value, 0 < value → holds value = field.getLsbD 0) (value : BitVec 16) :
    jumps field value = holds value.toInt := by
  rw [jumps]
  rcases Int.lt_trichotomy value.toInt 0 with hsign | hsign | hsign
  · have hother : ¬ 0 < value.toInt := by omega
    simp [hbelow _ hsign, hsign, Int.ne_of_lt hsign, hother]
  · simp [hsign, hequal]
  · have hother : ¬ value.toInt < 0 := by omega
    simp [habove _ hsign, hsign, Int.ne_of_gt hsign, hother]

/-- The field of a condition asks for a jump exactly if the comparison holds. -/
theorem comparison?_of_mem_jumpTable : ∀ entry ∈ jumpTable,
    ∃ holds, comparison? entry.1 = some holds ∧
      ∀ value, jumps entry.2 value = holds value.toInt := by
  intro entry hentry
  suffices hsigns : ∃ holds, comparison? entry.1 = some holds ∧
      (∀ value < 0, holds value = entry.2.getLsbD 2) ∧ holds 0 = entry.2.getLsbD 1 ∧
        ∀ value, 0 < value → holds value = entry.2.getLsbD 0 by
    obtain ⟨holds, hholds, hbelow, hequal, habove⟩ := hsigns
    exact ⟨holds, hholds, jumps_eq hbelow hequal habove⟩
  revert entry
  simp only [jumpTable, List.forall_mem_cons]
  simp +contextual [comparison?, Int.le_of_lt, Int.ne_of_lt, Int.ne_of_gt]

/-! ## Main result -/

/-- A word makes the machine do what the mnemonics of a computation say. -/
structure Realizes (word : MachineWord) (dest : Option String) (comp : String)
    (jump : Option String) : Prop where
  /-- The digits of the word are three ones and the digits of its three fields. -/
  text : Binary.text word = "111" ++ Binary.text (compBits word) ++ Binary.text (destBits word)
    ++ Binary.text (jumpBits word)
  /-- The output of the arithmetic unit is the value of the expression. -/
  value : ∀ registers, expression? registers comp.toList =
    some (compute (compBits word) registers)
  /-- The second input is the memory cell exactly if the expression names it. -/
  input : usesMemory (compBits word) = true ↔ 'M' ∈ comp.toList
  storesA : (destBits word).getLsbD 2 = true ↔ 'A' ∈ (dest.getD "").toList
  storesD : (destBits word).getLsbD 1 = true ↔ 'D' ∈ (dest.getD "").toList
  storesM : (destBits word).getLsbD 0 = true ↔ 'M' ∈ (dest.getD "").toList
  /-- There is a jump exactly if the comparison holds of the output as a signed number. -/
  condition : ∃ holds, comparison? (jump.getD "") = some holds ∧
    ∀ output, jumps (jumpBits word) output = holds output.toInt

/-- A computation that has a word is what its word makes the machine do. -/
theorem realizes_of_compute {dest jump : Option String} {comp : String} {word : MachineWord}
    (h : Instruction.compute dest comp jump = .ok word) : Realizes word dest comp jump := by
  obtain ⟨compField, destField, jumpField, hcomp, hdest, hjump, rfl⟩ := exists_lookup_of_compute h
  have hcomp := entry_mem_of_lookup hcomp
  have hdest := entry_mem_of_lookup hdest
  have hjump := entry_mem_of_lookup hjump
  obtain ⟨hA, hD, hM⟩ := getLsbD_iff_of_mem_destTable _ hdest
  -- The fields of the word are the ones that were found.
  have hcompBits := compBits_computeWord compField destField jumpField
  have hdestBits := destBits_computeWord compField destField jumpField
  have hjumpBits := jumpBits_computeWord compField destField jumpField
  exact {
    text := by rw [hcompBits, hdestBits, hjumpBits, text_computeWord]
    value := by
      rw [hcompBits]
      exact expression?_of_mem_compTable _ hcomp
    input := by
      rw [hcompBits]
      exact usesMemory_iff_of_mem_compTable _ hcomp
    storesA := by rw [hdestBits, hA]
    storesD := by rw [hdestBits, hD]
    storesM := by rw [hdestBits, hM]
    condition := by
      rw [hjumpBits]
      exact comparison?_of_mem_jumpTable _ hjump }

/-- A subtraction from the memory cell is an addition between inversions. -/
theorem realizes_of_compute_sub :
    Instruction.compute (some "AMD") "M-D" (some "JLE") = .ok 0b1111000111111110#16 ∧
      Realizes 0b1111000111111110#16 (some "AMD") "M-D" (some "JLE") :=
  ⟨rfl, realizes_of_compute rfl⟩

end Machine

end HackAssembler
