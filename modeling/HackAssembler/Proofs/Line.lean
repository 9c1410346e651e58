/-
  HackAssembler.Proofs.Line

  The lines of a source: what is known of every line that `Line.ofSource` gives, and which lines a
  source has that was put together from the texts of its lines.
-/
import HackAssembler.Line
import HackAssembler.Proofs.List
import HackAssembler.Proofs.Token.Scan
import Mathlib.Data.List.Basic
import Mathlib.Data.List.Infix

namespace HackAssembler

/-! ## Comments -/

/-- What stands before the comment of a line is the beginning of the line. -/
theorem beforeComment_isPrefix (text : List Char) : beforeComment text <+: text := by
  induction text with
  | nil => simp
  | cons c rest ih =>
    by_cases hslashes : c = '/' ∧ rest.head? = some '/'
    · obtain ⟨rfl, hnext⟩ := hslashes
      obtain ⟨tail, rfl⟩ := List.head?_eq_some_iff.mp hnext
      rw [beforeComment_slashes]
      exact List.nil_prefix
    · rw [beforeComment_cons hslashes, List.cons_prefix_cons]
      exact ⟨rfl, ih⟩

/-- No `//` stands before a comment. -/
theorem not_slashes_infix_beforeComment (text : List Char) :
    ¬ ['/', '/'] <:+: beforeComment text := by
  induction text with
  | nil => simp
  | cons c rest ih =>
    by_cases hslashes : c = '/' ∧ rest.head? = some '/'
    · obtain ⟨rfl, hnext⟩ := hslashes
      obtain ⟨tail, rfl⟩ := List.head?_eq_some_iff.mp hnext
      simp
    · rw [beforeComment_cons hslashes, List.infix_cons_iff, not_or]
      refine ⟨?_, ih⟩
      intro hbegins
      obtain ⟨rfl, hnext⟩ := List.cons_prefix_cons.mp hbegins
      -- The second slash would stand at the head of the rest.
      obtain ⟨tail, htail⟩ := hnext.trans (beforeComment_isPrefix rest)
      exact hslashes ⟨rfl, by rw [← htail]; rfl⟩

/-- A comment is looked for behind a text that holds no `//` and is not continued to one. -/
theorem beforeComment_append {text rest : List Char} (h : ¬ ['/', '/'] <:+: text)
    (hrest : rest.head? ≠ some '/') :
    beforeComment (text ++ rest) = text ++ beforeComment rest := by
  induction text with
  | nil => rfl
  | cons c text ih =>
    rw [List.infix_cons_iff, not_or] at h
    have hslashes : ¬ (c = '/' ∧ (text ++ rest).head? = some '/') := by
      rintro ⟨rfl, hnext⟩
      cases text with
      | nil => exact hrest hnext
      | cons d text =>
        obtain rfl : d = '/' := by simpa using hnext
        exact h.1 ⟨text, rfl⟩
    rw [List.cons_append, beforeComment_cons hslashes, ih h.2, List.cons_append]

theorem beforeComment_append_of_not_mem {text : List Char} (h : '/' ∉ text) (rest : List Char) :
    beforeComment (text ++ rest) = text ++ beforeComment rest := by
  induction text with
  | nil => rfl
  | cons c text ih =>
    rw [List.mem_cons, not_or] at h
    rw [List.cons_append, beforeComment_cons (fun hslash => h.1 hslash.1.symm), ih h.2,
      List.cons_append]

theorem beforeComment_of_not_mem {text : List Char} (h : '/' ∉ text) :
    beforeComment text = text := by
  have hwhole := beforeComment_append_of_not_mem h []
  simpa using hwhole

/-- A character behind a line belongs to the comment of the line, if there is one. -/
theorem beforeComment_append_singleton {c : Char} (h : c ≠ '/') (text : List Char) :
    beforeComment (text ++ [c]) = beforeComment text ∨
      beforeComment (text ++ [c]) = beforeComment text ++ [c] := by
  induction text with
  | nil =>
    right
    rw [List.nil_append, beforeComment_of_not_mem (by simpa using h.symm)]
    rfl
  | cons d rest ih =>
    by_cases hslashes : d = '/' ∧ rest.head? = some '/'
    · obtain ⟨rfl, hnext⟩ := hslashes
      obtain ⟨tail, rfl⟩ := List.head?_eq_some_iff.mp hnext
      exact .inl rfl
    · have hslashes' : ¬ (d = '/' ∧ (rest ++ [c]).head? = some '/') := by
        cases rest with
        | nil => simp [h]
        | cons e rest => exact hslashes
      rw [List.cons_append, beforeComment_cons hslashes, beforeComment_cons hslashes',
        List.cons_append]
      rcases ih with ih | ih
      · exact .inl (by rw [ih])
      · exact .inr (by rw [ih])

namespace Line

/-! ## One line -/

/-- A line holds tokens, and they are those of its text. -/
theorem ofText?_eq_some_iff {number : Nat} {text : List Char} {line : Line} :
    ofText? number text = some line ↔
      line.number = number ∧ line.tokens = Token.scan (beforeComment text) ∧ line.tokens ≠ [] := by
  unfold ofText?
  split
  · rename_i hscan
    rw [hscan]
    constructor
    · intro h
      cases h
    · rintro ⟨-, htokens, hne⟩
      exact absurd htokens hne
  · rename_i token tokens hscan
    rw [hscan]
    constructor
    · intro h
      cases h
      exact ⟨rfl, rfl, by simp⟩
    · rintro ⟨rfl, htokens, -⟩
      rw [← htokens]

/-- A line stands in a source if the text between the line feeds before and behind it has its
    tokens, and its number counts the line feeds before it from 1. -/
def StandsIn (line : Line) (source : String) : Prop :=
  ∃ index text, (source.toList.splitOnP (· == '\n'))[index]? = some text ∧
    line.number = index + 1 ∧ ofText? line.number text = some line

/-- The lines of a source are the ones that stand in it. -/
theorem mem_ofSource_iff {source : String} {line : Line} :
    line ∈ ofSource source ↔ line.StandsIn source := by
  rw [ofSource, List.mem_filterMap]
  constructor
  · rintro ⟨⟨text, number⟩, hmem, hline⟩
    obtain ⟨hle, htext⟩ := List.mem_zipIdx_iff_le_and_getElem?_sub.mp hmem
    have hnumber := (ofText?_eq_some_iff.mp hline).1
    exact ⟨number - 1, text, htext, by omega, hnumber ▸ hline⟩
  · rintro ⟨index, text, htext, hnumber, hline⟩
    refine ⟨(text, line.number), ?_, hline⟩
    rw [List.mem_zipIdx_iff_le_and_getElem?_sub]
    exact ⟨by rw [hnumber]; omega, by rw [hnumber, Nat.add_sub_cancel, htext]⟩

/-- The lines of a source differ in their numbers. -/
theorem eq_of_number_eq {source : String} {line other : Line} (hline : line ∈ ofSource source)
    (hother : other ∈ ofSource source) (h : other.number = line.number) : other = line := by
  obtain ⟨index, text, htext, hnumber, hsome⟩ := mem_ofSource_iff.mp hline
  obtain ⟨place, copy, hcopy, hplace, hsome'⟩ := mem_ofSource_iff.mp hother
  obtain rfl : place = index := by omega
  rw [htext] at hcopy
  obtain rfl := Option.some.inj hcopy
  rw [h, hsome] at hsome'
  exact (Option.some.inj hsome').symm

/-- The lines of a source come in the order of their numbers. -/
theorem pairwise_ofSource (source : String) :
    (ofSource source).Pairwise fun line next => line.number < next.number := by
  have hrange (texts : List (List Char)) :
      (texts.zipIdx 1).Pairwise fun entry next => entry.2 < next.2 := by
    have hpairwise : ((texts.zipIdx 1).map Prod.snd).Pairwise (· < ·) := by
      rw [List.zipIdx_map_snd]
      exact List.pairwise_lt_range'
    exact List.pairwise_map.mp hpairwise
  rw [ofSource, List.pairwise_filterMap]
  refine (hrange _).imp ?_
  intro entry next hlt line hline line' hline'
  rw [(ofText?_eq_some_iff.mp hline).1, (ofText?_eq_some_iff.mp hline').1]
  exact hlt

theorem StandsIn.tokens_ne_nil {source : String} {line : Line} (h : line.StandsIn source) :
    line.tokens ≠ [] := by
  obtain ⟨index, text, -, -, hline⟩ := h
  exact (ofText?_eq_some_iff.mp hline).2.2

theorem StandsIn.isLexeme {source : String} {line : Line} (h : line.StandsIn source) :
    ∀ token ∈ line.tokens, token.IsLexeme := by
  obtain ⟨index, text, -, -, hline⟩ := h
  rw [(ofText?_eq_some_iff.mp hline).2.1]
  exact Token.isLexeme_of_mem_scan

/-! ## Sources put together from lines -/

theorem splitOnP_flatMap_lines {texts : List (List Char)} (h : ∀ text ∈ texts, '\n' ∉ text) :
    (texts.flatMap fun text => text ++ ['\n']).splitOnP (· == '\n') = texts ++ [[]] := by
  induction texts with
  | nil => simp
  | cons text texts ih =>
    rw [List.forall_mem_cons] at h
    have hfree : ∀ c ∈ text, (c == '\n') = false := by
      intro c hc
      rw [beq_eq_false_iff_ne]
      rintro rfl
      exact h.1 hc
    rw [List.flatMap_cons, List.append_assoc, List.singleton_append,
      List.splitOnP_append_cons_of_forall_mem hfree _ (by simp), ih h.2, List.cons_append]

/-- A source of lines that each end with a line feed has these lines, from number 1 on. -/
theorem ofSource_of_lines {source : String} {texts : List (List Char)}
    (hsource : source.toList = texts.flatMap fun text => text ++ ['\n'])
    (h : ∀ text ∈ texts, '\n' ∉ text) :
    ofSource source = (texts.zipIdx 1).filterMap fun (text, number) => ofText? number text := by
  rw [ofSource, hsource, splitOnP_flatMap_lines h, List.zipIdx_append, List.filterMap_append]
  simp [ofText?]

/-! ## A line by itself -/

/-- The source that has the line at place `number` at the same place, and nothing before or behind
    it but empty lines. -/
def isolate (source : String) (number : Nat) : String :=
  String.ofList (List.replicate (number - 1) '\n' ++
    ((source.toList.splitOnP (· == '\n'))[number - 1]?).getD [])

theorem splitOnP_replicate_append {text : List Char} (h : ∀ c ∈ text, (c == '\n') = false)
    (count : Nat) :
    (List.replicate count '\n' ++ text).splitOnP (· == '\n') =
      List.replicate count [] ++ [text] := by
  induction count with
  | zero => exact List.splitOnP_eq_singleton h
  | succ count ih =>
    rw [List.replicate_succ, List.cons_append, List.splitOnP_cons_eq_if_modifyHead, ih]
    rfl

/-- Empty lines hold no tokens, so a line by itself is all that its source has. -/
theorem StandsIn.ofSource_isolate {source : String} {line : Line} (h : line.StandsIn source) :
    ofSource (isolate source line.number) = [line] := by
  obtain ⟨index, text, htext, hnumber, hline⟩ := h
  have hmem : text ∈ source.toList.splitOnP (· == '\n') := List.mem_of_getElem? htext
  have hfree : ∀ c ∈ text, (c == '\n') = false := eq_false_of_mem_splitOnP hmem
  have hempty : ((List.replicate index []).zipIdx 1).filterMap
      (fun (text, number) => ofText? number text) = [] := by
    rw [List.filterMap_eq_nil_iff]
    rintro ⟨text, number⟩ hentry
    obtain rfl : text = [] := (List.mem_replicate.mp (List.fst_mem_of_mem_zipIdx hentry)).2
    simp [ofText?]
  have hpiece : ((source.toList.splitOnP (· == '\n'))[line.number - 1]?).getD [] = text := by
    rw [hnumber, Nat.add_sub_cancel, htext, Option.getD_some]
  rw [ofSource, isolate, String.toList_ofList, hpiece, splitOnP_replicate_append hfree,
    List.zipIdx_append, List.filterMap_append, hnumber, Nat.add_sub_cancel, hempty,
    List.length_replicate, List.zipIdx_singleton, Nat.add_comm 1, ← hnumber]
  show [(text, line.number)].filterMap (fun (text, number) => ofText? number text) = [line]
  simp [hline]

end Line

end HackAssembler
