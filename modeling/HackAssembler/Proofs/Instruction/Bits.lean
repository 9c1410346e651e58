/-
  HackAssembler.Proofs.Instruction.Bits

  Writing numbers in a fixed number of bits is exact. Reading digits from left to right gives their
  positional value (`ofDigits_eq_natOfDigits`), in which the first digit outweighs all that follow
  it (`ofDigits_cons`, `ofDigits_lt`). So a number has no more than one numeral of a given length
  (`isNumeral_iff`), and numerals of one length are ordered like their numbers
  (`lt_iff_ofDigits_lt`). A number that fits is written as its numeral, which is its shortest one
  behind zeros (`digits_eq_leftpad`); any other number is refused by name.
-/
import HackAssembler.Proofs.Instruction.Encoding
import Mathlib.Data.Nat.Digits.Defs

namespace HackAssembler

namespace Binary

/-! ## Positional value -/

/-- The number that a binary digit stands for. -/
def digitValue (c : Char) : Nat :=
  if c = '1' then 1 else 0

@[simp] theorem digitValue_zero : digitValue '0' = 0 := rfl

@[simp] theorem digitValue_one : digitValue '1' = 1 := rfl

theorem digitValue_lt (c : Char) : digitValue c < 2 := by
  rw [digitValue]
  split <;> omega

/-- Reading from left to right gives each digit the weight of its position. -/
theorem ofDigits_eq_natOfDigits (text : List Char) :
    ofDigits text = Nat.ofDigits 2 (text.reverse.map digitValue) := by
  induction text using List.reverseRecOn with
  | nil => rfl
  | append_singleton text c ih =>
    rw [ofDigits_append_singleton, List.reverse_append, List.reverse_singleton,
      List.singleton_append, List.map_cons, Nat.ofDigits_cons, ← ih, digitValue, Nat.add_comm]

theorem ofDigits_cons (c : Char) (text : List Char) :
    ofDigits (c :: text) = digitValue c * 2 ^ text.length + ofDigits text := by
  rw [ofDigits_eq_natOfDigits, ofDigits_eq_natOfDigits, List.reverse_cons, List.map_append,
    Nat.ofDigits_append, List.length_map, List.length_reverse, List.map_singleton,
    Nat.ofDigits_singleton, Nat.add_comm, Nat.mul_comm]

theorem ofDigits_lt (text : List Char) : ofDigits text < 2 ^ text.length := by
  have hdigits : ∀ digit ∈ text.reverse.map digitValue, digit < 2 :=
    List.forall_mem_map.mpr fun c _ => digitValue_lt c
  have hlt := Nat.ofDigits_lt_base_pow_length (by decide) hdigits
  rwa [← ofDigits_eq_natOfDigits, List.length_map, List.length_reverse] at hlt

/-! ## Order -/

/-- Texts of as many binary digits are in lexicographic order if their numbers are in order. -/
theorem lt_iff_ofDigits_lt {text other : List Char} (hlength : text.length = other.length)
    (htext : ∀ c ∈ text, c = '0' ∨ c = '1') (hother : ∀ c ∈ other, c = '0' ∨ c = '1') :
    text < other ↔ ofDigits text < ofDigits other := by
  -- The first place where the digits differ decides both comparisons.
  induction text generalizing other with
  | nil =>
    obtain rfl := List.eq_nil_of_length_eq_zero hlength.symm
    simp
  | cons c text ih =>
    cases other with
    | nil => cases hlength
    | cons d other =>
      have hlength := Nat.succ.inj hlength
      have hrest := ih hlength (fun e he => htext e (.tail c he)) fun e he => hother e (.tail d he)
      have hlt := ofDigits_lt text
      have hlt' := ofDigits_lt other
      rw [List.cons_lt_cons_iff, ofDigits_cons, ofDigits_cons, hrest, ← hlength]
      rw [← hlength] at hlt'
      rcases htext c (.head text) with rfl | rfl
      · rcases hother d (.head other) with rfl | rfl
        · simp
        · refine iff_of_true (.inl (by decide)) ?_
          rw [digitValue_zero, digitValue_one]
          omega
      · rcases hother d (.head other) with rfl | rfl
        · refine iff_of_false (by simp) ?_
          rw [digitValue_zero, digitValue_one]
          omega
        · simp

/-! ## Numbers that fit -/

variable {text following : List Char} {width value other : Nat}

theorem exists_field (h : value < 2 ^ width) : ∃ field : BitVec width, field.toNat = value :=
  ⟨_, field?_eq_some_iff.mp (field?_of_lt h)⟩

/-- A number of 32 bits fits if a shift by the width leaves nothing of it. A field of as many bits
    has room for all of them, so no shift is needed there. -/
theorem lt_two_pow_iff_shiftRight (value : BitVec 32) :
    value.toNat < 2 ^ width ↔ (width < 32 → value >>> width = 0#32) := by
  rw [← BitVec.toNat_inj, BitVec.toNat_ushiftRight, Nat.shiftRight_eq_div_pow, BitVec.toNat_zero,
    Nat.div_eq_zero_iff_lt (Nat.two_pow_pos width)]
  constructor
  · intro h _
    exact h
  · intro h
    rcases Nat.lt_or_ge width 32 with hnarrow | hwide
    · exact h hnarrow
    · exact value.isLt.trans_le (Nat.pow_le_pow_right (by decide) hwide)

theorem toNat_lt_two_pow_max (field : BitVec width) : field.toNat < 2 ^ max width 1 :=
  field.isLt.trans_le (Nat.pow_le_pow_right (by decide) (Nat.le_max_left width 1))

/-! ## Numerals -/

/-- Digits are a number in binary. There are `width` of them, but at least one. -/
structure IsNumeral (text : List Char) (width value : Nat) : Prop where
  isBinaryDigit : ∀ c ∈ text, c = '0' ∨ c = '1'
  length : text.length = max width 1
  /-- The last digit counts once, and each of the others twice as much as the one after it. -/
  value : Nat.ofDigits 2 (text.reverse.map digitValue) = value

theorem IsNumeral.ofDigits_eq (h : IsNumeral text width value) : ofDigits text = value := by
  rw [ofDigits_eq_natOfDigits, h.value]

/-- The numeral of a number is made of its digits, if there is room for all of them. -/
theorem isNumeral_iff :
    IsNumeral text width value ↔ value < 2 ^ max width 1 ∧ text = digits (max width 1) value := by
  constructor
  · intro h
    have hlt := ofDigits_lt text
    have hdigits := digits_ofDigits h.isBinaryDigit
    rw [h.length, h.ofDigits_eq] at hlt hdigits
    exact ⟨hlt, hdigits.symm⟩
  · rintro ⟨hlt, rfl⟩
    refine ⟨digits_eq_zero_or_one _ _, length_digits _ _, ?_⟩
    rw [← ofDigits_eq_natOfDigits, ofDigits_digits, BitVec.toNat_ofNat, Nat.mod_eq_of_lt hlt]

theorem isNumeral_text (field : BitVec width) :
    IsNumeral (Binary.text field).toList width field.toNat := by
  rw [Binary.text, String.toList_ofList, isNumeral_iff]
  exact ⟨toNat_lt_two_pow_max field, rfl⟩

theorem IsNumeral.unique (h : IsNumeral text width value) (h' : IsNumeral following width value) :
    text = following := by
  rw [(isNumeral_iff.mp h).2, (isNumeral_iff.mp h').2]

theorem IsNumeral.value_unique (h : IsNumeral text width value) (h' : IsNumeral text width other) :
    value = other := by
  rw [← h.value, h'.value]

theorem IsNumeral.lt_iff (h : IsNumeral text width value) (h' : IsNumeral following width other) :
    text < following ↔ value < other := by
  rw [lt_iff_ofDigits_lt (h.length.trans h'.length.symm) h.isBinaryDigit h'.isBinaryDigit,
    h.ofDigits_eq, h'.ofDigits_eq]

/-! ## Padding -/

theorem digits_zero_right (width : Nat) : digits width 0 = List.replicate width '0' := by
  induction width with
  | zero => rfl
  | succ width ih =>
    rw [digits_succ, Nat.zero_div, ih, List.replicate_succ']
    rfl

theorem digitChar_mod_two (value : Nat) :
    Nat.digitChar (value % 2) = if value % 2 = 0 then '0' else '1' := by
  rcases Nat.mod_two_eq_zero_or_one value with hbit | hbit
  · rw [hbit]
    rfl
  · rw [hbit]
    rfl

/-- All digits of a number are its shortest numeral behind zeros. -/
theorem digits_eq_leftpad (hwidth : 0 < width) (h : value < 2 ^ width) :
    digits width value = (Nat.toDigits 2 value).leftpad width '0' := by
  -- The last digits are the same, and those before them belong to the half of the number.
  induction width generalizing value with
  | zero => omega
  | succ width ih =>
    rw [digits_succ, ← digitChar_mod_two, Nat.toDigits_eq_if (by decide)]
    split
    · rename_i hsmall
      rw [Nat.div_eq_of_lt hsmall, Nat.mod_eq_of_lt hsmall, digits_zero_right]
      rfl
    · rename_i hlarge
      have hwidth : 0 < width := by
        rcases Nat.eq_zero_or_pos width with rfl | hpos
        · omega
        · exact hpos
      have hhalf : value / 2 < 2 ^ width := by omega
      rw [ih hwidth hhalf, List.leftpad, List.leftpad, List.append_assoc, List.length_append,
        List.length_singleton, Nat.add_sub_add_right]

theorem text_eq_leftpad (field : BitVec width) :
    Binary.text field = String.ofList ((Nat.toDigits 2 field.toNat).leftpad width '0') := by
  -- The shortest numeral has a digit, so it needs no zero in a field without bits.
  have hpos : 0 < (Nat.toDigits 2 field.toNat).length := Nat.length_toDigits_pos
  have hcount : max width 1 - (Nat.toDigits 2 field.toNat).length =
      width - (Nat.toDigits 2 field.toNat).length := by
    omega
  rw [Binary.text, digits_eq_leftpad (by omega) (toNat_lt_two_pow_max field), List.leftpad,
    hcount, List.leftpad]

end Binary

namespace Instruction

open Binary (IsNumeral)

variable {width value : Nat} {text : String}

/-! ## Numbers in a field -/

/-- What is in a field is written as the text of the field. -/
theorem toBits_toNat (field : BitVec width) :
    toBits field.toNat width = .ok (Binary.text field) := by
  rw [toBits, fit, Binary.field?_eq_some_iff.mpr rfl]
  rfl

theorem toBits_of_le (h : 2 ^ width ≤ value) :
    toBits value width = .error (.outOfRange value width) := by
  rw [toBits, fit, Binary.field?_of_le h]
  rfl

theorem exists_toBits (h : value < 2 ^ width) :
    ∃ text, toBits value width = .ok text ∧ IsNumeral text.toList width value := by
  obtain ⟨field, rfl⟩ := Binary.exists_field h
  exact ⟨_, toBits_toNat field, Binary.isNumeral_text field⟩

/-- A number that fits is written as its shortest numeral behind zeros. -/
theorem toBits_eq_leftpad (h : value < 2 ^ width) :
    toBits value width = .ok (String.ofList ((Nat.toDigits 2 value).leftpad width '0')) := by
  obtain ⟨field, rfl⟩ := Binary.exists_field h
  rw [toBits_toNat, Binary.text_eq_leftpad]

/-- A number is written as a text if it fits and the text is its numeral. -/
theorem toBits_eq_ok_iff :
    toBits value width = .ok text ↔ value < 2 ^ width ∧ IsNumeral text.toList width value := by
  rcases Nat.lt_or_ge value (2 ^ width) with hlt | hle
  · obtain ⟨written, hwritten, hnumeral⟩ := exists_toBits hlt
    rw [hwritten, Except.ok.injEq]
    constructor
    · rintro rfl
      exact ⟨hlt, hnumeral⟩
    · rintro ⟨-, htext⟩
      exact String.toList_injective (hnumeral.unique htext)
  · rw [toBits_of_le hle]
    constructor
    · rintro ⟨⟩
    · rintro ⟨hlt, -⟩
      omega

theorem exists_toBits_iff : (∃ text, toBits value width = .ok text) ↔ value < 2 ^ width := by
  constructor
  · rintro ⟨text, htext⟩
    exact (toBits_eq_ok_iff.mp htext).1
  · intro hlt
    obtain ⟨text, htext, -⟩ := exists_toBits hlt
    exact ⟨text, htext⟩

theorem toBits_injective (width : Nat) : Function.Injective fun value => toBits value width := by
  intro value other (h : toBits value width = toBits other width)
  rcases Nat.lt_or_ge value (2 ^ width) with hlt | hle
  · obtain ⟨text, htext, hnumeral⟩ := exists_toBits hlt
    exact hnumeral.value_unique (toBits_eq_ok_iff.mp (h.symm.trans htext)).2
  · -- A refusal names the number, and no number that fits is refused.
    rw [toBits_of_le hle] at h
    rcases Nat.lt_or_ge other (2 ^ width) with hlt | hle'
    · obtain ⟨text, htext, -⟩ := exists_toBits hlt
      rw [htext] at h
      cases h
    · rw [toBits_of_le hle'] at h
      cases h
      rfl

/-! ## Main result -/

/-- A way to write numbers in `width` bits cuts nothing off and can be undone. -/
structure WritesExactly (write : Nat → Except EncodeFault String) (width : Nat) : Prop where
  fits : ∀ value, (∃ text, write value = .ok text) ↔ value < 2 ^ width
  /-- For numbers of 32 bits a shift tells whether they fit. -/
  shift : ∀ value : BitVec 32, (∃ text, write value.toNat = .ok text) ↔
    (width < 32 → value >>> width = 0#32)
  /-- All numbers of 32 bits fit into as many or more. -/
  wide : 32 ≤ width → ∀ value : BitVec 32, ∃ text, write value.toNat = .ok text
  /-- What is written is the numeral of the number. -/
  numeral : ∀ value text, write value = .ok text ↔
    value < 2 ^ width ∧ IsNumeral text.toList width value
  /-- The text is the shortest numeral, behind the zeros that fill the field. -/
  padded : ∀ value, value < 2 ^ width →
    write value = .ok (String.ofList ((Nat.toDigits 2 value).leftpad width '0'))
  refuses : ∀ value, 2 ^ width ≤ value → write value = .error (.outOfRange value width)
  injective : Function.Injective write
  /-- Texts are in lexicographic order if the numbers are in order. -/
  lt_iff : ∀ value other text following, write value = .ok text → write other = .ok following →
    (text < following ↔ value < other)
  /-- Reading the text back from left to right gives the number. -/
  reads : ∀ value, value < 2 ^ width →
    (write value).map (fun text => Binary.ofDigits text.toList) = .ok value

/-- Writing numbers in bits is exact, in fields of any width. -/
theorem writesExactly_toBits (width : Nat) :
    WritesExactly (fun value => toBits value width) width where
  fits _ := exists_toBits_iff
  shift value := by rw [exists_toBits_iff, Binary.lt_two_pow_iff_shiftRight]
  wide hwide value := by
    rw [exists_toBits_iff, Binary.lt_two_pow_iff_shiftRight]
    intro hnarrow
    omega
  numeral _ _ := toBits_eq_ok_iff
  padded _ := toBits_eq_leftpad
  refuses _ := toBits_of_le
  injective := toBits_injective width
  lt_iff _ _ _ _ h h' := (toBits_eq_ok_iff.mp h).2.lt_iff (toBits_eq_ok_iff.mp h').2
  reads value hlt := by
    obtain ⟨text, htext, hnumeral⟩ := exists_toBits hlt
    rw [htext, Except.map, hnumeral.ofDigits_eq]

/-- The largest number of 32 bits with room to spare and with one bit too few, a field without
    bits, and two neighbours that differ in each digit. -/
theorem writesExactly_toBits_wide :
    toBits 4294967295 40 = .ok "0000000011111111111111111111111111111111" ∧
      toBits 4294967295 31 = .error (.outOfRange 4294967295 31) ∧
      toBits 0 0 = .ok "0" ∧ toBits 1 0 = .error (.outOfRange 1 0) ∧
      ∃ text following, toBits 3 3 = .ok text ∧ toBits 4 3 = .ok following ∧ text < following := by
  refine ⟨?_, ?_, ?_, ?_, ?_⟩
  · exact ((writesExactly_toBits 40).numeral _ _).mpr
      ⟨by decide, by simp, rfl, rfl⟩
  · exact (writesExactly_toBits 31).refuses _ (by decide)
  · exact (writesExactly_toBits 0).padded _ (by decide)
  · exact (writesExactly_toBits 0).refuses _ (by decide)
  · obtain ⟨text, htext⟩ := ((writesExactly_toBits 3).fits 3).mpr (by decide)
    obtain ⟨following, hfollowing⟩ := ((writesExactly_toBits 3).fits 4).mpr (by decide)
    exact ⟨text, following, htext, hfollowing,
      ((writesExactly_toBits 3).lt_iff 3 4 text following htext hfollowing).mpr (by decide)⟩

end Instruction

end HackAssembler
