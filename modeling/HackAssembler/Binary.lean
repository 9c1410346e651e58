/-
  HackAssembler.Binary

  Numbers in binary. A number fits a field of `width` bits if the field gives it back, which is so
  for the numbers below `2 ^ width`. A field is written with one digit a bit, the most significant
  first; a field without bits is still written, as `0`.
-/

namespace HackAssembler.Binary

/-- A number as a field of `width` bits, if it fits. -/
def field? (width value : Nat) : Option (BitVec width) :=
  let field := BitVec.ofNat width value
  if field.toNat = value then some field else none

/-- The last `width` binary digits of a number, the most significant first. -/
def digits (width value : Nat) : List Char :=
  go width value []
where
  /-- Puts `width` digits of `value` in front of `tail`. -/
  go : Nat → Nat → List Char → List Char
    | 0, _, tail => tail
    | width + 1, value, tail =>
      go width (value / 2) ((if value % 2 = 0 then '0' else '1') :: tail)

/-- The number that a text of binary digits stands for. -/
def ofDigits (text : List Char) : Nat :=
  text.foldl (fun value c => 2 * value + if c = '1' then 1 else 0) 0

/-- A field as text. -/
def text {width : Nat} (field : BitVec width) : String :=
  String.ofList (digits (max width 1) field.toNat)

/-! ## Lemmas -/

theorem field?_eq_some_iff {width value : Nat} {field : BitVec width} :
    field? width value = some field ↔ field.toNat = value := by
  constructor
  · intro h
    simp only [field?] at h
    split at h
    · rename_i fits
      cases h
      exact fits
    · contradiction
  · rintro rfl
    simp [field?]

theorem digits.go_eq (width value : Nat) (tail : List Char) :
    digits.go width value tail = digits width value ++ tail := by
  have key : ∀ (width value : Nat) (front tail : List Char),
      digits.go width value (front ++ tail) = digits.go width value front ++ tail := by
    intro width
    induction width with
    | zero => intros; rfl
    | succ width ih =>
      intro value front tail
      rw [digits.go, digits.go, ← ih, List.cons_append]
  exact key width value [] tail

@[simp] theorem digits_zero (value : Nat) : digits 0 value = [] := rfl

theorem digits_succ (width value : Nat) :
    digits (width + 1) value =
      digits width (value / 2) ++ [if value % 2 = 0 then '0' else '1'] := by
  rw [digits, digits.go, digits.go_eq]

@[simp] theorem length_digits (width value : Nat) : (digits width value).length = width := by
  induction width generalizing value with
  | zero => rfl
  | succ width ih => simp [digits_succ, ih]

/-- Reading the digits back gives the number, less what did not fit. -/
theorem ofDigits_digits (width value : Nat) :
    ofDigits (digits width value) = (BitVec.ofNat width value).toNat := by
  rw [BitVec.toNat_ofNat]
  induction width generalizing value with
  | zero => simp [ofDigits, Nat.mod_one]
  | succ width ih =>
    have half := ih (value / 2)
    rw [ofDigits] at half
    rw [digits_succ, ofDigits, List.foldl_append, half]
    have bit : (if (if value % 2 = 0 then '0' else '1') = '1' then 1 else 0) = value % 2 := by
      split <;> simp_all
    simp only [List.foldl_cons, List.foldl_nil, bit]
    rw [Nat.pow_succ', Nat.mod_mul]
    omega

end HackAssembler.Binary
