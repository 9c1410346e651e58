/-
  HackAssembler.Proofs.Path.Extension

  Paths with another extension. Such a path differs from the one it was made of in its last
  component only, and the last component stays the same only if the extension does.
-/
import HackAssembler.Proofs.List
import HackAssembler.Proofs.Path
import Mathlib.Data.List.TakeDrop
import Mathlib.Data.List.TakeWhile

namespace HackAssembler.Path

/-! ## Components and texts -/

theorem slash_not_mem_of_mem_components {path : Path} {component : String}
    (h : component ∈ path.components) : '/' ∉ component.toList := by
  obtain ⟨piece, hpiece, rfl⟩ := List.mem_map.mp h
  rw [String.toList_ofList]
  intro hslash
  have hfree := eq_false_of_mem_splitOnP hpiece '/' hslash
  cases hfree

/-- A path that is put together from components has these components. -/
theorem components_intercalate {components : List String} (hne : components ≠ [])
    (h : ∀ component ∈ components, '/' ∉ component.toList) :
    (⟨"/".intercalate components⟩ : Path).components = components := by
  have hpieces : ("/".intercalate components).toList.splitOnP (· == '/') =
      components.map String.toList := by
    rw [String.toList_intercalate, ← List.splitOn_eq_splitOnP]
    refine List.splitOn_intercalate '/' ?_ (by simpa using hne)
    intro piece hpiece
    obtain ⟨component, hcomponent, rfl⟩ := List.mem_map.mp hpiece
    exact h component hcomponent
  rw [Path.components, hpieces, List.map_map]
  simp [Function.comp_def]

/-- A path has a first component without characters before others if it begins with `/`. -/
theorem head?_text_eq_slash_iff (path : Path) :
    path.text.toList.head? = some '/' ↔
      path.components.head? = some "" ∧ path.components.length ≠ 1 := by
  unfold Path.components
  cases htext : path.text.toList with
  | nil => simp
  | cons c rest =>
    rw [List.splitOnP_cons_eq_if_modifyHead]
    obtain ⟨first, pieces, hpieces⟩ :=
      List.exists_cons_of_ne_nil (List.splitOnP_ne_nil (· == '/') rest)
    rw [hpieces]
    by_cases hslash : c = '/'
    · simp [hslash]
    · simp [hslash]

/-- Where a path begins does not depend on its last component. -/
theorem head?_text_congr {path other : Path} {initial : List String} {last last' : String}
    (h : path.components = initial ++ [last]) (h' : other.components = initial ++ [last']) :
    path.text.toList.head? = some '/' ↔ other.text.toList.head? = some '/' := by
  rw [head?_text_eq_slash_iff, head?_text_eq_slash_iff, h, h']
  cases initial with
  | nil => simp
  | cons first initial => simp

/-- A path that ends with `/` has no characters behind it. -/
theorem getLast?_text_ne_of_components {path : Path} {initial : List String} {last : String}
    (h : path.components = initial ++ [last]) (hne : last ≠ "") :
    path.text.toList.getLast? ≠ some '/' := by
  intro hslash
  obtain ⟨text, htext⟩ := List.getLast?_eq_some_iff.mp hslash
  rw [components, htext, List.splitOnP_append_cons text [] (by rfl), List.splitOnP_nil,
    List.map_append, List.map_singleton] at h
  exact hne (List.singleton_inj.mp (List.append_inj' h rfl).2).symm

/-! ## File names -/

/-- A file name has an extension behind its last dot, unless there is no dot but at its
    beginning. -/
theorem splitExtension_cases (name : String) :
    splitExtension name = (name, none) ∨
      ∃ stem extension, splitExtension name = (stem, some extension) ∧
        '.' ∉ extension.toList ∧ name = stem ++ "." ++ extension := by
  unfold splitExtension
  split
  · exact .inl rfl
  · exact .inl rfl
  · rename_i extension dot stem _ hspan
    rw [List.span_eq_takeWhile_dropWhile, Prod.mk.injEq] at hspan
    obtain ⟨hextension, hstem⟩ := hspan
    -- The characters behind the last dot are the first ones from the end that are no dots.
    have hdot : dot = '.' := by
      have hhead := List.head?_dropWhile_not (· != '.') name.toList.reverse
      rw [hstem] at hhead
      simpa using hhead
    subst hdot
    refine .inr ⟨_, _, rfl, ?_, ?_⟩
    · rw [String.toList_ofList, List.mem_reverse, ← hextension]
      intro hmem
      simpa using List.mem_takeWhile_imp hmem
    · have hname : name.toList = stem.reverse ++ '.' :: extension.reverse := by
        rw [← List.reverse_inj, ← List.takeWhile_append_dropWhile (p := (· != '.'))
          (l := name.toList.reverse), hextension, hstem]
        simp
      rw [← String.toList_inj, hname]
      simp

/-- The name of the sibling with another extension, at the end of a path. -/
def siblingName (name extension : String) : String :=
  if (splitExtension name).1 = "." then ".." else (splitExtension name).1 ++ "." ++ extension

variable {name extension : String}

theorem slash_not_mem_siblingName (hname : '/' ∉ name.toList) (h : '/' ∉ extension.toList) :
    '/' ∉ (siblingName name extension).toList := by
  have hstem : '/' ∉ (splitExtension name).1.toList := by
    rcases splitExtension_cases name with hsplit | ⟨stem, old, hsplit, -, rfl⟩
    · rwa [hsplit]
    · rw [hsplit]
      simp only [String.toList_append, List.mem_append, not_or] at hname
      exact hname.1.1
  unfold siblingName
  split
  · decide
  · simp [hstem, h]

/-- A sibling has another name, unless the extension is the one that the name has already. -/
theorem siblingName_ne (hparent : name ≠ "..") (h : (splitExtension name).2 ≠ some extension) :
    siblingName name extension ≠ name := by
  intro heq
  unfold siblingName at heq
  rcases splitExtension_cases name with hsplit | ⟨stem, old, hsplit, -, hname⟩
  · rw [hsplit] at heq
    split at heq
    · exact hparent heq.symm
    · -- The extension comes behind the whole name, which is longer then.
      have hlength := congrArg String.length heq
      simp only [String.length_append, show ".".length = 1 from rfl] at hlength
      omega
  · rw [hsplit] at heq h
    split at heq
    · exact hparent heq.symm
    · rw [hname, String.append_right_inj] at heq
      exact h (congrArg some heq.symm)

/-- What is put behind a sibling with a dot in it gives another name. -/
theorem siblingName_append_ne {tail : String} (h : '.' ∈ tail.toList) :
    siblingName name extension ++ tail ≠ name := by
  intro heq
  rcases splitExtension_cases name with hsplit | ⟨stem, old, hsplit, hdot, hname⟩
  · have hlength := congrArg String.length heq
    rw [String.length_append, siblingName, hsplit] at hlength
    split at hlength
    · rename_i hstem
      rw [show name.length = 1 from congrArg String.length hstem,
        show "..".length = 2 from rfl] at hlength
      omega
    · simp only [String.length_append, show ".".length = 1 from rfl] at hlength
      omega
  · have hsibling : ∃ behind, siblingName name extension = stem ++ "." ++ behind := by
      rw [siblingName, hsplit]
      split
      · rename_i hstem
        exact ⟨"", by rw [show stem = "." from hstem]; rfl⟩
      · exact ⟨extension, rfl⟩
    obtain ⟨behind, hbehind⟩ := hsibling
    -- The dot would be in the extension that the name has.
    rw [hbehind, hname, String.append_assoc, String.append_right_inj] at heq
    rw [← heq, String.toList_append] at hdot
    exact hdot (List.mem_append_right _ h)

variable {path : Path} {initial : List String}

theorem trimmed_of_components {last : String} (h : path.components = initial ++ [last])
    (hidle : isIdle last = false) : path.trimmed = last :: initial.reverse := by
  rw [trimmed, h, List.reverse_append, List.reverse_singleton, List.singleton_append,
    List.dropWhile_cons_of_neg (by simp [hidle])]

theorem EndsWith.fileName? (h : path.EndsWith initial name) : path.fileName? = some name := by
  rw [Path.fileName?, trimmed_of_components h.components h.isIdle]
  simp [h.ne_parent]

theorem EndsWith.extension? (h : path.EndsWith initial name) :
    path.extension? = (splitExtension name).2 := by
  rw [Path.extension?, h.fileName?, Option.bind_some]

theorem EndsWith.hasTail (h : path.EndsWith initial name) : path.hasTail = false := by
  rw [Path.hasTail, h.components]
  simp [h.isIdle]

/-- A path with another extension ends with a sibling of the name. -/
theorem EndsWith.components_withExtension (h : path.EndsWith initial name)
    (hextension : '/' ∉ extension.toList) :
    (path.withExtension extension).components = initial ++ [siblingName name extension] := by
  have hcomponents : path.withExtension extension =
      ⟨"/".intercalate (initial ++ [siblingName name extension])⟩ := by
    rw [withExtension, h.fileName?]
    simp [h.hasTail, trimmed_of_components h.components h.isIdle, siblingName]
  have hfree (component : String) (hmem : component ∈ initial ++ [name]) :
      '/' ∉ component.toList :=
    slash_not_mem_of_mem_components (h.components ▸ hmem)
  rw [hcomponents]
  refine components_intercalate (by simp) ?_
  intro component hmem
  rcases List.mem_append.mp hmem with hmem | hmem
  · exact hfree component (List.mem_append_left _ hmem)
  · rw [List.mem_singleton.mp hmem]
    exact slash_not_mem_siblingName (hfree name (by simp)) hextension

end HackAssembler.Path
