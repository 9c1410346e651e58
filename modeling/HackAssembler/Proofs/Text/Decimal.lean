/-
  HackAssembler.Proofs.Text.Decimal

  Numbers that are written in decimal are numerals, and reading them gives the number back.
-/
import HackAssembler.Text.Decimal

namespace HackAssembler.Text

theorem isDigit_of_mem_toString {value : Nat} : ∀ c ∈ (toString value).toList, c.isDigit = true := by
  intro c hc
  rw [Nat.toString_eq_ofList_toDigits, String.toList_ofList] at hc
  exact Nat.isDigit_of_mem_toDigits (by omega) (by omega) hc

theorem isDecimal_toString (value : Nat) : isDecimal (toString value) = true :=
  List.all_eq_true.mpr isDigit_of_mem_toString

theorem toString_ne_empty (value : Nat) : toString value ≠ "" :=
  Nat.repr_ne_empty

/-- Reading a written number gives it back. -/
theorem decimalValue_toString (value : Nat) : decimalValue (toString value).toList = value := by
  rw [Nat.toString_eq_ofList_toDigits, String.toList_ofList]
  induction value using Nat.strongRecOn with
  | ind value ih =>
    rw [Nat.toDigits_eq_if (by omega)]
    split
    · rename_i hlt
      simp [decimalValue, Nat.toNat_digitChar_of_lt_ten hlt]
    · rw [decimalValue_append_singleton, ih _ (by omega),
        Nat.toNat_digitChar_of_lt_ten (Nat.mod_lt _ (by omega))]
      show 10 * (value / 10) + (48 + value % 10 - 48) = value
      omega

end HackAssembler.Text
