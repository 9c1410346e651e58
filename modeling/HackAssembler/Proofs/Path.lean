/-
  HackAssembler.Proofs.Path

  Paths that end with a name. What a text without `/` is put behind a path goes to its last
  component, so a path with an extension names a place in the same directory.
-/
import HackAssembler.Path

namespace HackAssembler.Path

theorem exists_splitOnP_append (text : List Char) {tail : List Char} (h : '/' ∉ tail) :
    ∃ initial last, text.splitOnP (· == '/') = initial ++ [last] ∧
      (text ++ tail).splitOnP (· == '/') = initial ++ [last ++ tail] := by
  -- Only the last piece of the text is open at its end.
  induction text with
  | nil =>
    have hfree : ∀ c ∈ tail, (c == '/') = false := by
      intro c hc
      rw [beq_eq_false_iff_ne]
      rintro rfl
      exact h hc
    exact ⟨[], [], rfl, List.splitOnP_eq_singleton hfree⟩
  | cons c text ih =>
    obtain ⟨initial, last, htext, hwhole⟩ := ih
    rw [List.cons_append, List.splitOnP_cons_eq_if_modifyHead,
      List.splitOnP_cons_eq_if_modifyHead, htext, hwhole]
    split
    · exact ⟨[] :: initial, last, rfl, rfl⟩
    · cases initial with
      | nil => exact ⟨[], c :: last, rfl, rfl⟩
      | cons first initial => exact ⟨(c :: first) :: initial, last, rfl, rfl⟩

/-- A path that is extended goes on with its last component. -/
theorem exists_components_extend (path : Path) (tail : String) (h : '/' ∉ tail.toList) :
    ∃ initial last, path.components = initial ++ [last] ∧
      (path.extend tail).components = initial ++ [last ++ tail] := by
  obtain ⟨initial, last, hpath, hwhole⟩ := exists_splitOnP_append path.text.toList h
  refine ⟨initial.map String.ofList, String.ofList last, ?_, ?_⟩
  · rw [components, hpath, List.map_append, List.map_singleton]
  · rw [components, extend, String.toList_append, hwhole, List.map_append, List.map_singleton,
      String.ofList_append, String.ofList_toList]

/-- A path that does not end with `/` has a last component. -/
theorem exists_components_of_getLast?_ne {path : Path} (hne : path.text ≠ "")
    (hslash : path.text.toList.getLast? ≠ some '/') :
    ∃ initial last, path.components = initial ++ [last] ∧ last ≠ "" := by
  rcases List.eq_nil_or_concat path.text.toList with hnil | ⟨text, c, htext⟩
  · exact absurd (String.toList_eq_nil_iff.mp hnil) hne
  · have hc : '/' ∉ [c] := by
      rw [List.mem_singleton]
      rintro rfl
      rw [htext] at hslash
      simp at hslash
    obtain ⟨initial, last, -, hwhole⟩ := exists_splitOnP_append text hc
    refine ⟨initial.map String.ofList, String.ofList (last ++ [c]), ?_, by simp⟩
    rw [components, htext, List.concat_eq_append, hwhole, List.map_append, List.map_singleton]

/-- A path ends with a name in a directory, and with nothing behind the name. -/
structure EndsWith (path : Path) (initial : List String) (name : String) : Prop where
  components : path.components = initial ++ [name]
  isIdle : isIdle name = false
  ne_parent : name ≠ ".."
  slash : path.text.toList.getLast? ≠ some '/'

end HackAssembler.Path
