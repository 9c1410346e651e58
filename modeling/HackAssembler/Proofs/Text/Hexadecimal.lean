/-
  HackAssembler.Proofs.Text.Hexadecimal

  Numbers that are written in hexadecimal have capital digits, at least four of them and no more
  than needed, and reading them gives the number back.
-/
import HackAssembler.Listing
import HackAssembler.Text.Hexadecimal

namespace HackAssembler.Listing

open Text (isHexDigit hexDigitValue hexadecimalValue)

/-- Digits that stand for a number, filled up with zeros to four. -/
structure IsHexadecimal (digits : List Char) (value : Nat) : Prop where
  isHexDigit : ∀ c ∈ digits, isHexDigit c = true
  length : 4 ≤ digits.length
  /-- A fifth digit is there only if it is needed. -/
  minimal : 4 < digits.length → digits.head? ≠ some '0'
  value : hexadecimalValue digits = value

/-- A number in hexadecimal, not filled up. -/
def capitalDigits (value : Nat) : List Char :=
  (Nat.toDigits 16 value).map Char.toUpper

theorem toUpper_digitChar {digit : Nat} (h : digit < 16) :
    isHexDigit (Nat.digitChar digit).toUpper = true ∧
      hexDigitValue (Nat.digitChar digit).toUpper = digit ∧
      ((Nat.digitChar digit).toUpper = '0' → digit = 0) := by
  have hall : ∀ digit : Fin 16, isHexDigit (Nat.digitChar digit).toUpper = true ∧
      hexDigitValue (Nat.digitChar digit).toUpper = digit ∧
      ((Nat.digitChar digit).toUpper = '0' → digit.val = 0) := by
    decide
  exact hall ⟨digit, h⟩

theorem capitalDigits_of_lt {value : Nat} (h : value < 16) :
    capitalDigits value = [(Nat.digitChar value).toUpper] := by
  rw [capitalDigits, Nat.toDigits_eq_if (by omega), if_pos h]
  rfl

theorem capitalDigits_of_le {value : Nat} (h : 16 ≤ value) :
    capitalDigits value =
      capitalDigits (value / 16) ++ [(Nat.digitChar (value % 16)).toUpper] := by
  rw [capitalDigits, Nat.toDigits_eq_if (by omega), if_neg (by omega), List.map_append]
  rfl

theorem isHexDigit_of_mem_capitalDigits (value : Nat) :
    ∀ c ∈ capitalDigits value, isHexDigit c = true := by
  induction value using Nat.strongRecOn with
  | ind value ih =>
    intro c hc
    by_cases hlt : value < 16
    · rw [capitalDigits_of_lt hlt, List.mem_singleton] at hc
      exact hc ▸ (toUpper_digitChar hlt).1
    · rw [capitalDigits_of_le (by omega), List.mem_append, List.mem_singleton] at hc
      rcases hc with hc | rfl
      · exact ih (value / 16) (by omega) c hc
      · exact (toUpper_digitChar (Nat.mod_lt _ (by omega))).1

theorem hexadecimalValue_capitalDigits (value : Nat) :
    hexadecimalValue (capitalDigits value) = value := by
  induction value using Nat.strongRecOn with
  | ind value ih =>
    by_cases hlt : value < 16
    · rw [capitalDigits_of_lt hlt, ← List.nil_append [_], Text.hexadecimalValue_append_singleton,
        (toUpper_digitChar hlt).2.1]
      exact Nat.zero_add value
    · rw [capitalDigits_of_le (by omega), Text.hexadecimalValue_append_singleton,
        ih _ (by omega), (toUpper_digitChar (Nat.mod_lt _ (by omega))).2.1]
      omega

/-- The digits of a number begin with a zero only if it is zero. -/
theorem head?_capitalDigits {value : Nat} (h : value ≠ 0) :
    ∃ c, (capitalDigits value).head? = some c ∧ c ≠ '0' := by
  induction value using Nat.strongRecOn with
  | ind value ih =>
    by_cases hlt : value < 16
    · rw [capitalDigits_of_lt hlt]
      exact ⟨_, rfl, fun hzero => h ((toUpper_digitChar hlt).2.2 hzero)⟩
    · -- The last digit is not the first one, and the others are those of a number above zero.
      obtain ⟨c, hhead, hc⟩ := ih (value / 16) (by omega) (by omega)
      rw [capitalDigits_of_le (by omega), List.head?_append, hhead]
      exact ⟨c, rfl, hc⟩

theorem isHexadecimal_hexadecimal (value : Nat) :
    IsHexadecimal (hexadecimal value).toList value := by
  have hpadded : (hexadecimal value).toList =
      List.replicate (4 - (capitalDigits value).length) '0' ++ capitalDigits value := by
    rw [hexadecimal, String.toList_ofList]
    rfl
  rw [hpadded]
  refine ⟨?_, ?_, ?_, ?_⟩
  · intro c hc
    rcases List.mem_append.mp hc with hc | hc
    · rw [(List.mem_replicate.mp hc).2]
      decide
    · exact isHexDigit_of_mem_capitalDigits value c hc
  · rw [List.length_append, List.length_replicate]
    omega
  · intro hlong
    rw [List.length_append, List.length_replicate] at hlong
    have hvalue : value ≠ 0 := by
      rintro rfl
      exact absurd hlong (by decide)
    obtain ⟨c, hhead, hc⟩ := head?_capitalDigits hvalue
    rw [Nat.sub_eq_zero_of_le (by omega), List.replicate_zero, List.nil_append, hhead]
    simpa using hc
  · rw [Text.hexadecimalValue_replicate_append, hexadecimalValue_capitalDigits]

end HackAssembler.Listing
