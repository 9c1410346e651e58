/-
  HackAssembler.Proofs.Text.Fields

  Texts that are put together from fields. A blank splits a text into two, and the fields of the
  text are those of both parts (`fields_append_blank`); what has no blank is a field by itself.
-/
import HackAssembler.Text.Fields

namespace HackAssembler.Text

/-- A text that is not empty, and of visible characters only. -/
structure IsField (text : List Char) : Prop where
  ne_nil : text ≠ []
  visible : ∀ c ∈ text, isVisible c = true

theorem isVisible_iff {c : Char} : isVisible c = true ↔ 0x21 ≤ c.toNat ∧ c.toNat ≤ 0x7E := by
  rw [isVisible, Bool.and_eq_true, decide_eq_true_iff, decide_eq_true_iff]

theorem isBlank_of_isVisible {c : Char} (h : isVisible c = true) : isBlank c = false :=
  isBlank_eq_false (isVisible_iff.mp h)

/-- The fields on both sides of a blank. -/
theorem fields_append_blank (before after : List Char) {c : Char} (h : isBlank c = true) :
    fields (before ++ c :: after) = fields before ++ fields after := by
  rw [fields, List.splitOnP_append_cons _ _ h, List.filter_append]
  rfl

theorem fields_replicate_append (count : Nat) (text : List Char) :
    fields (List.replicate count ' ' ++ text) = fields text := by
  induction count with
  | zero => rfl
  | succ count ih =>
    rw [List.replicate_succ, List.cons_append, ← ih]
    exact fields_append_blank [] _ (by decide)

theorem IsField.fields_eq {text : List Char} (h : IsField text) : fields text = [text] := by
  have hblank : ∀ c ∈ text, isBlank c = false := fun c hc => isBlank_of_isVisible (h.visible c hc)
  rw [fields, List.splitOnP_eq_singleton hblank]
  simp [h.ne_nil]

end HackAssembler.Text
