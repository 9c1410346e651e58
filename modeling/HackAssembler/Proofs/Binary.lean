/-
  HackAssembler.Proofs.Binary

  Fields as text. A field that was put together from two fields is written as the one behind the
  other (`digits_append`, `text_append`), and a text of `width` binary digits is the text of exactly
  one field (`digits_ofDigits`, `exists_text`).
-/
import HackAssembler.Binary
import Mathlib.Algebra.Group.Nat.Defs
import Mathlib.Data.List.Induction

namespace HackAssembler.Binary

/-! ## Fields that fit -/

theorem field?_of_lt {width value : Nat} (h : value < 2 ^ width) :
    field? width value = some (BitVec.ofNat width value) := by
  rw [field?_eq_some_iff, BitVec.toNat_ofNat, Nat.mod_eq_of_lt h]

theorem field?_of_le {width value : Nat} (h : 2 ^ width ≤ value) : field? width value = none := by
  rw [Option.eq_none_iff_forall_ne_some]
  intro field hfield
  have hlt := field.isLt
  rw [field?_eq_some_iff.mp hfield] at hlt
  omega

/-! ## Digits -/

theorem digits_eq_zero_or_one (width value : Nat) :
    ∀ c ∈ digits width value, c = '0' ∨ c = '1' := by
  induction width generalizing value with
  | zero => simp
  | succ width ih =>
    intro c hc
    rw [digits_succ, List.mem_append] at hc
    rcases hc with hc | hc
    · exact ih _ c hc
    · rw [List.mem_singleton.mp hc]
      split
      · exact .inl rfl
      · exact .inr rfl

/-- The digits of a number with a low part are those of the high part, then those of the low
    part. -/
theorem digits_mul_add (high low width more : Nat) (h : low < 2 ^ more) :
    digits (width + more) (high * 2 ^ more + low) = digits width high ++ digits more low := by
  -- The last digit belongs to the low part, and halving leaves the high part as it is.
  induction more generalizing low with
  | zero =>
    obtain rfl : low = 0 := by omega
    simp
  | succ more ih =>
    have hpow : high * 2 ^ (more + 1) = 2 * (high * 2 ^ more) := by
      rw [Nat.pow_succ, ← Nat.mul_assoc, Nat.mul_comm]
    have hhalf : (high * 2 ^ (more + 1) + low) / 2 = high * 2 ^ more + low / 2 := by
      omega
    have hparity : (high * 2 ^ (more + 1) + low) % 2 = low % 2 := by
      omega
    rw [Nat.pow_succ] at h
    rw [← Nat.add_assoc, digits_succ, hhalf, hparity, ih (low / 2) (by omega), digits_succ more,
      List.append_assoc]

theorem digits_append {width more : Nat} (high : BitVec width) (low : BitVec more) :
    digits (width + more) (high ++ low).toNat =
      digits width high.toNat ++ digits more low.toNat := by
  rw [BitVec.toNat_append, Nat.shiftLeft_eq, Nat.mul_comm, ← Nat.two_pow_add_eq_or_of_lt low.isLt,
    Nat.mul_comm]
  exact digits_mul_add _ _ _ _ low.isLt

/-! ## Reading digits -/

theorem ofDigits_append_singleton (text : List Char) (c : Char) :
    ofDigits (text ++ [c]) = 2 * ofDigits text + if c = '1' then 1 else 0 := by
  simp [ofDigits]

/-- Binary digits are the digits of the number that they stand for. -/
theorem digits_ofDigits {text : List Char} (h : ∀ c ∈ text, c = '0' ∨ c = '1') :
    digits text.length (ofDigits text) = text := by
  -- The last digit decides whether the number is even, the others are those of its half.
  induction text using List.reverseRecOn with
  | nil => rfl
  | append_singleton text c ih =>
    have htext : ∀ d ∈ text, d = '0' ∨ d = '1' := fun d hd => h d (by simp [hd])
    rw [List.length_append, List.length_singleton, digits_succ, ofDigits_append_singleton]
    rcases h c (by simp) with rfl | rfl
    · rw [if_neg (by decide), Nat.add_zero, Nat.mul_div_cancel_left _ (by omega), ih htext,
        if_pos (by omega)]
    · have hhalf : (2 * ofDigits text + 1) / 2 = ofDigits text := by omega
      rw [if_pos rfl, if_neg (by omega), hhalf, ih htext]

/-! ## Text of fields -/

theorem toList_text {width : Nat} (field : BitVec width) (h : 0 < width) :
    (text field).toList = digits width field.toNat := by
  rw [text, String.toList_ofList, Nat.max_eq_left h]

/-- The text of two fields in one is the text of the one and then of the other. -/
theorem text_append {width more : Nat} (high : BitVec width) (low : BitVec more)
    (hwidth : 0 < width) (hmore : 0 < more) :
    text (high ++ low) = text high ++ text low := by
  apply String.toList_injective
  rw [String.toList_append, toList_text _ hwidth, toList_text _ hmore,
    toList_text _ (by omega : 0 < width + more), digits_append]

/-- The text of a field gives the field back. -/
theorem ofNat_ofDigits_text {width : Nat} (field : BitVec width) (hwidth : 0 < width) :
    BitVec.ofNat width (ofDigits (text field).toList) = field := by
  rw [toList_text _ hwidth, ofDigits_digits, BitVec.ofNat_toNat, BitVec.ofNat_toNat,
    BitVec.setWidth_eq, BitVec.setWidth_eq]

/-- A text of binary digits is the text of a field. -/
theorem exists_text {width : Nat} {digitText : List Char} (hlength : digitText.length = width)
    (hwidth : 0 < width) (h : ∀ c ∈ digitText, c = '0' ∨ c = '1') :
    ∃ field : BitVec width, (text field).toList = digitText := by
  refine ⟨BitVec.ofNat width (ofDigits digitText), ?_⟩
  have hdigits := digits_ofDigits h
  rw [hlength] at hdigits
  rw [toList_text _ hwidth, ← ofDigits_digits, hdigits, hdigits]

/-- A text of binary digits is the text of a field and then of another one. -/
theorem exists_text_append {width more : Nat} {digitText : List Char}
    (hlength : digitText.length = width + more) (hwidth : 0 < width) (hmore : 0 < more)
    (h : ∀ c ∈ digitText, c = '0' ∨ c = '1') :
    ∃ (high : BitVec width) (low : BitVec more),
      digitText = (text high).toList ++ (text low).toList := by
  have htake : (digitText.take width).length = width := by
    rw [List.length_take]
    omega
  have hdrop : (digitText.drop width).length = more := by
    rw [List.length_drop]
    omega
  obtain ⟨high, hhigh⟩ := exists_text htake hwidth fun c hc => h c (List.mem_of_mem_take hc)
  obtain ⟨low, hlow⟩ := exists_text hdrop hmore fun c hc => h c (List.mem_of_mem_drop hc)
  exact ⟨high, low, by rw [hhigh, hlow, List.take_append_drop]⟩

end HackAssembler.Binary
