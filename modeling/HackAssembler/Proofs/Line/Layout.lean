/-
  HackAssembler.Proofs.Line.Layout

  Layouts are read back as the tokens they were made of. Tokens that were found in a source hold no
  `//`, and between tokens stand blanks, so the first `//` of a line is where its comment was put
  (`Writes.scan_beforeComment`). A source that was laid out therefore has the token lists that it
  was made of (`map_tokens_ofSource_of_layout`), and carriage returns at the ends of lines are not
  seen (`ofSource_withReturns`).
-/
import HackAssembler.Line.Layout
import HackAssembler.Proofs.Line
import Mathlib.Data.List.Forall2

namespace HackAssembler

open Text (isBlank)

/-! ## Tokens that can be laid out -/

/-- A token as it may stand before the comment of a line. -/
structure Token.StandsAlone (token : Token) : Prop where
  isLexeme : token.IsLexeme
  noSlashes : ¬ ['/', '/'] <:+: token.text.toList

theorem Line.standsAlone {source : String} {line : Line} (h : line ∈ Line.ofSource source) :
    ∀ token ∈ line.tokens, token.StandsAlone := by
  obtain ⟨index, text, -, -, hline⟩ := Line.mem_ofSource_iff.mp h
  rw [(Line.ofText?_eq_some_iff.mp hline).2.1]
  intro token htoken
  refine ⟨Token.isLexeme_of_mem_scan token htoken, ?_⟩
  intro hslashes
  have hinfix := hslashes.trans (Token.text_infix_of_mem_scan token htoken)
  exact not_slashes_infix_beforeComment text hinfix

/-! ## Gaps and comments -/

theorem IsGap.slash_not_mem {gap : List Char} (h : IsGap gap) : '/' ∉ gap := by
  intro hmem
  have hblank := (h '/' hmem).1
  revert hblank
  decide

theorem IsGap.scan_append {gap : List Char} (h : IsGap gap) (rest : List Char) :
    Token.scan (gap ++ rest) = Token.scan rest :=
  Token.scan_append_of_isBlank (fun c hc => (h c hc).1) rest

theorem IsGap.scan_eq_nil {gap : List Char} (h : IsGap gap) : Token.scan gap = [] := by
  have hscan := h.scan_append []
  rwa [List.append_nil, Token.scan_nil] at hscan

/-- A gap ends every token. -/
theorem IsGap.stopsAt {gap : List Char} (h : IsGap gap) (apart : gap ≠ []) (token : Token)
    (rest : List Char) : token.StopsAt (gap ++ rest) := by
  cases gap with
  | nil => exact absurd rfl apart
  | cons c gap => exact Token.stopsAt_cons.mpr (Token.isExtendedBy_of_isBlank (h c (by simp)).1 token)

/-- A gap does not go on with a comment that a token would begin. -/
theorem IsGap.head?_ne {gap : List Char} (h : IsGap gap) (apart : gap ≠ []) (rest : List Char) :
    (gap ++ rest).head? ≠ some '/' := by
  cases gap with
  | nil => exact absurd rfl apart
  | cons c gap =>
    intro hc
    obtain rfl : c = '/' := by simpa using hc
    exact h.slash_not_mem (by simp)

theorem IsGap.beforeComment_append {gap : List Char} (h : IsGap gap) (rest : List Char) :
    beforeComment (gap ++ rest) = gap ++ beforeComment rest :=
  beforeComment_append_of_not_mem h.slash_not_mem rest

theorem IsComment.beforeComment_eq_nil {text : List Char} (h : IsComment text) :
    beforeComment text = [] := by
  rcases h with rfl | ⟨rest, rfl, -⟩
  · rfl
  · rfl

/-- The end of a line is a gap and a comment. Without a gap there is no comment. -/
theorem IsLineEnd.exists_split {rest : List Char} (h : IsLineEnd rest) :
    ∃ gap comment, IsGap gap ∧ IsComment comment ∧ rest = gap ++ comment ∧
      (gap = [] → comment = []) := by
  cases h with
  | gap blank => exact ⟨rest, [], blank, .inl rfl, (List.append_nil rest).symm, fun _ => rfl⟩
  | @comment gap comment blank apart remark =>
    exact ⟨gap, comment, blank, remark, rfl, fun hgap => absurd hgap apart⟩

/-- The last token of a line is found again, and nothing behind it. -/
theorem IsLineEnd.scan_beforeComment {rest : List Char} (h : IsLineEnd rest) {token : Token}
    (htoken : token.StandsAlone) :
    Token.scan (beforeComment (token.text.toList ++ rest)) = [token] := by
  obtain ⟨gap, comment, hgap, hcomment, rfl, hnone⟩ := h.exists_split
  have hhead : (gap ++ comment).head? ≠ some '/' := by
    by_cases hempty : gap = []
    · simp [hempty, hnone hempty]
    · exact hgap.head?_ne hempty comment
  have hstop : token.StopsAt gap := by
    by_cases hempty : gap = []
    · rw [hempty]
      exact token.stopsAt_nil
    · simpa using hgap.stopsAt hempty token []
  rw [beforeComment_append htoken.noSlashes hhead, hgap.beforeComment_append,
    hcomment.beforeComment_eq_nil, List.append_nil, Token.scan_text_append htoken.isLexeme hstop,
    hgap.scan_eq_nil]

/-! ## Lines -/

/-- Tokens that were written are found again before the comment. -/
theorem Writes.scan_beforeComment {tokens : List Token} {text : List Char} (h : Writes tokens text)
    (halone : ∀ token ∈ tokens, token.StandsAlone) :
    Token.scan (beforeComment text) = tokens := by
  induction h with
  | last ending => exact ending.scan_beforeComment (halone _ (by simp))
  | @cons token gap tokens rest blank apart others ih =>
    rw [List.forall_mem_cons] at halone
    rw [List.append_assoc, beforeComment_append halone.1.noSlashes (blank.head?_ne apart rest),
      blank.beforeComment_append,
      Token.scan_text_append halone.1.isLexeme (blank.stopsAt apart token _), blank.scan_append,
      ih halone.2]

theorem LineLayout.scan_beforeComment {tokens : List Token} {text : List Char}
    (h : LineLayout tokens text) (halone : ∀ token ∈ tokens, token.StandsAlone) :
    Token.scan (beforeComment text) = tokens := by
  cases h with
  | blank space remark =>
    rw [space.beforeComment_append, remark.beforeComment_eq_nil, List.append_nil,
      space.scan_eq_nil]
  | tokens space written =>
    rw [space.beforeComment_append, space.scan_append, written.scan_beforeComment halone]

/-! ## Sources -/

namespace Line

/-- Texts that were laid out have the token lists that they were made of. -/
theorem map_tokens_of_layout {lists : List (List Token)} {texts : List (List Char)}
    (h : SourceLayout lists texts) (halone : ∀ tokens ∈ lists, ∀ token ∈ tokens, token.StandsAlone)
    (first : Nat) :
    ((texts.zipIdx first).filterMap fun (text, number) => ofText? number text).map Line.tokens =
      lists := by
  induction h generalizing first with
  | nil => rfl
  | @skip lists text texts line _ ih =>
    have hnone : ofText? first text = none := by
      rw [ofText?, line.scan_beforeComment (by simp)]
    rw [List.zipIdx_cons, List.filterMap_cons]
    simp only [hnone]
    exact ih halone (first + 1)
  | @cons tokens lists text texts held line _ ih =>
    rw [List.forall_mem_cons] at halone
    have hsome : ofText? first text = some ⟨first, tokens⟩ :=
      ofText?_eq_some_iff.mpr ⟨rfl, (line.scan_beforeComment halone.1).symm, held⟩
    rw [List.zipIdx_cons, List.filterMap_cons]
    simp only [hsome]
    rw [List.map_cons, ih halone.2]

/-- A source that was laid out with the tokens of another has the same token lists. -/
theorem map_tokens_ofSource_of_layout {source other : String}
    (h : SourceLayout ((ofSource source).map Line.tokens)
      (other.toList.splitOnP (· == '\n'))) :
    (ofSource other).map Line.tokens = (ofSource source).map Line.tokens := by
  apply map_tokens_of_layout h
  intro tokens htokens
  obtain ⟨line, hline, rfl⟩ := List.mem_map.mp htokens
  exact Line.standsAlone hline

/-! ## Carriage returns -/

/-- A carriage return at the end of a line is not seen. -/
theorem ofText?_append_return (number : Nat) (text : List Char) :
    ofText? number (text ++ ['\r']) = ofText? number text := by
  have hscan : Token.scan (beforeComment (text ++ ['\r'])) = Token.scan (beforeComment text) := by
    have hreturn : '\r' ≠ '/' := by decide
    rcases beforeComment_append_singleton hreturn text with hsame | hlonger
    · rw [hsame]
    · rw [hlonger, Token.scan_append_singleton (by decide)]
  rw [ofText?, ofText?, hscan]

/-- With carriage returns some lines are longer by one at the end. -/
theorem forall₂_splitOnP_withReturns (text : List Char) :
    List.Forall₂ (fun line longer => longer = line ∨ longer = line ++ ['\r'])
      (text.splitOnP (· == '\n')) ((withReturns text).splitOnP (· == '\n')) := by
  induction text with
  | nil => exact .cons (.inl rfl) .nil
  | cons c text ih =>
    by_cases hfeed : c = '\n'
    · subst hfeed
      have hcons : withReturns ('\n' :: text) = '\r' :: '\n' :: withReturns text := rfl
      rw [hcons, List.splitOnP_cons_eq_if_modifyHead, List.splitOnP_cons_eq_if_modifyHead,
        List.splitOnP_cons_eq_if_modifyHead]
      exact .cons (.inr rfl) ih
    · have hcons : withReturns (c :: text) = c :: withReturns text := by
        simp [withReturns, hfeed]
      have hc : ¬ (c == '\n') = true := by simpa using hfeed
      rw [hcons, List.splitOnP_cons_eq_if_modifyHead, List.splitOnP_cons_eq_if_modifyHead, if_neg hc,
        if_neg hc]
      generalize text.splitOnP (· == '\n') = lines at ih
      generalize (withReturns text).splitOnP (· == '\n') = longers at ih
      -- The character stands at the head of the first line in both.
      cases ih with
      | nil => exact .nil
      | @cons line longer lines longers hline hlines =>
        refine .cons ?_ hlines
        rcases hline with rfl | rfl
        · exact .inl rfl
        · exact .inr rfl

theorem ofSource_withReturns (source : String) :
    ofSource (String.ofList (withReturns source.toList)) = ofSource source := by
  have hlines := forall₂_splitOnP_withReturns source.toList
  rw [ofSource, ofSource, String.toList_ofList]
  generalize source.toList.splitOnP (· == '\n') = texts at hlines
  generalize (withReturns source.toList).splitOnP (· == '\n') = others at hlines
  generalize 1 = first
  induction hlines generalizing first with
  | nil => rfl
  | @cons text other texts others hline _ ih =>
    have hsame : ofText? first other = ofText? first text := by
      rcases hline with rfl | rfl
      · rfl
      · exact ofText?_append_return first text
    rw [List.zipIdx_cons, List.zipIdx_cons, List.filterMap_cons, List.filterMap_cons]
    simp only [hsame, ih (first + 1)]

end Line

end HackAssembler
