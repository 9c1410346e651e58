/-
  HackAssembler.Proofs.Line.Cover

  What is left of a line in its tokens. The code of a line is what stands before its first `//`.
  Its tokens cover it: between them are only blanks, each has the form of its class, and none could
  go on with the character behind it (`Token.Covers`). Code is covered in one way only
  (`Token.scan_eq_iff_covers`), so this says all that there is to say of the tokens of a line.
-/
import HackAssembler.Proofs.Line

namespace HackAssembler

open Text (isBlank)

/-! ## The code of a line -/

/-- The part of a line up to its first `//`, or the whole line if there is none. -/
def IsCodeOf (code text : List Char) : Prop :=
  (text = code ∧ ¬ ['/', '/'] <:+: code) ∨
    ∃ comment, text = code ++ '/' :: '/' :: comment ∧ ¬ ['/', '/'] <:+: code ++ ['/']

theorem isCodeOf_beforeComment (text : List Char) : IsCodeOf (beforeComment text) text := by
  induction text with
  | nil => exact .inl ⟨rfl, by simp⟩
  | cons c rest ih =>
    by_cases hslashes : c = '/' ∧ rest.head? = some '/'
    · obtain ⟨rfl, hnext⟩ := hslashes
      obtain ⟨comment, rfl⟩ := List.head?_eq_some_iff.mp hnext
      rw [beforeComment_slashes]
      exact .inr ⟨comment, rfl, by decide⟩
    · rw [beforeComment_cons hslashes]
      rcases ih with ⟨hrest, -⟩ | ⟨comment, hrest, hfirst⟩
      · refine .inl ⟨by rw [← hrest], ?_⟩
        rw [← beforeComment_cons hslashes]
        exact not_slashes_infix_beforeComment _
      · refine .inr ⟨comment, by rw [List.cons_append, ← hrest], ?_⟩
        rw [List.cons_append, List.infix_cons_iff, not_or]
        refine ⟨fun hbegins => ?_, hfirst⟩
        -- The slash behind the code is that of the comment, so the line would have one before it.
        obtain ⟨hc, tail, htail⟩ := List.cons_prefix_cons.mp hbegins
        apply hslashes
        rw [hrest, hc.symm]
        cases hcode : beforeComment rest with
        | nil => exact ⟨rfl, rfl⟩
        | cons d code =>
          rw [hcode] at htail
          cases htail
          exact ⟨rfl, rfl⟩

theorem beforeComment_append_slashes {code : List Char} (h : ¬ ['/', '/'] <:+: code ++ ['/'])
    (comment : List Char) : beforeComment (code ++ '/' :: '/' :: comment) = code := by
  induction code with
  | nil => rfl
  | cons c code ih =>
    rw [List.cons_append, List.infix_cons_iff, not_or] at h
    have hslashes : ¬ (c = '/' ∧ (code ++ '/' :: '/' :: comment).head? = some '/') := by
      rintro ⟨rfl, hnext⟩
      refine h.1 (List.cons_prefix_cons.mpr ⟨rfl, ?_⟩)
      cases code with
      | nil => exact List.prefix_refl _
      | cons d code =>
        obtain rfl : d = '/' := by simpa using hnext
        exact ⟨code ++ ['/'], rfl⟩
    rw [List.cons_append, beforeComment_cons hslashes, ih h.2]

/-- A line has one code. -/
theorem isCodeOf_iff {code text : List Char} : IsCodeOf code text ↔ code = beforeComment text := by
  constructor
  · rintro (⟨rfl, hnone⟩ | ⟨comment, rfl, hfirst⟩)
    · have hwhole : beforeComment (text ++ []) = text ++ beforeComment [] :=
        beforeComment_append hnone (by simp)
      simpa using hwhole.symm
    · exact (beforeComment_append_slashes hfirst comment).symm
  · rintro rfl
    exact isCodeOf_beforeComment text

namespace Token

/-! ## Tokens that cover a text -/

/-- Tokens stand in a text in order, with blanks and nothing else around them, and none of them
    could go on with the character behind it. -/
inductive Covers : List Token → List Char → Prop where
  | nil {gap : List Char} (blank : ∀ c ∈ gap, isBlank c = true) : Covers [] gap
  | cons {gap : List Char} {token : Token} {tokens : List Token} {rest : List Char}
      (blank : ∀ c ∈ gap, isBlank c = true) (stops : token.StopsAt rest)
      (others : Covers tokens rest) :
      Covers (token :: tokens) (gap ++ (token.text.toList ++ rest))

theorem Covers.cons_of_isBlank {tokens : List Token} {code : List Char} (h : Covers tokens code)
    {c : Char} (hc : isBlank c = true) : Covers tokens (c :: code) := by
  cases h with
  | nil blank => exact .nil (List.forall_mem_cons.mpr ⟨hc, blank⟩)
  | @cons gap token tokens rest blank stops others =>
    rw [← List.cons_append]
    exact .cons (List.forall_mem_cons.mpr ⟨hc, blank⟩) stops others

theorem covers_scan (code : List Char) : Covers (scan code) code := by
  induction code using scan_induction with
  | nil =>
    rw [scan_nil]
    exact .nil (by simp)
  | blank c rest hblank ih =>
    rw [scan_cons_of_isBlank hblank]
    exact ih.cons_of_isBlank hblank
  | token c rest hblank ih =>
    rw [scan_cons hblank]
    have hcovers : Covers ((lead c rest).1 :: scan (lead c rest).2)
        ([] ++ ((lead c rest).1.text.toList ++ (lead c rest).2)) :=
      .cons (by simp) (stopsAt_lead c rest) ih
    rwa [List.nil_append, text_lead_append] at hcovers

theorem Covers.scan_eq {tokens : List Token} {code : List Char} (h : Covers tokens code)
    (hlexeme : ∀ token ∈ tokens, token.IsLexeme) : scan code = tokens := by
  induction h with
  | nil blank =>
    have hscan := scan_append_of_isBlank blank []
    rwa [List.append_nil, scan_nil] at hscan
  | cons blank stops _ ih =>
    rw [List.forall_mem_cons] at hlexeme
    rw [scan_append_of_isBlank blank, scan_text_append hlexeme.1 stops, ih hlexeme.2]

/-- The tokens that are found in a text are the lexemes that cover it. -/
theorem scan_eq_iff_covers {tokens : List Token} {code : List Char} :
    scan code = tokens ↔ Covers tokens code ∧ ∀ token ∈ tokens, token.IsLexeme := by
  constructor
  · rintro rfl
    exact ⟨covers_scan code, isLexeme_of_mem_scan⟩
  · rintro ⟨hcovers, hlexeme⟩
    exact hcovers.scan_eq hlexeme

/-! ## Nothing is lost -/

/-- No character of a lexeme is blank. -/
theorem IsLexeme.isBlank_eq_false {token : Token} (h : token.IsLexeme) :
    ∀ c ∈ token.text.toList, isBlank c = false := by
  intro c hc
  cases token with
  | number digits => exact isBlank_of_isIdentifierChar (isIdentifierChar_of_isDigit (h.2 c hc))
  | identifier name =>
    obtain ⟨first, rest, hlist, hfirst, hrest⟩ := h
    rw [text, hlist, List.mem_cons] at hc
    rcases hc with rfl | hc
    · exact isBlank_of_isIdentifierChar (isIdentifierChar_of_isIdentifierStart hfirst)
    · exact isBlank_of_isIdentifierChar (hrest c hc)
  | operator op =>
    obtain rfl : c = op.toChar := by simpa [text] using hc
    exact isBlank_toChar op
  | invalid stray =>
    have hstray := h.2 c hc
    simp_all [isStray]

/-- Tokens that cover a text hold all of it but its blanks. -/
theorem Covers.flatMap_text {tokens : List Token} {code : List Char} (h : Covers tokens code)
    (hlexeme : ∀ token ∈ tokens, token.IsLexeme) :
    (tokens.flatMap fun token => token.text.toList) = code.filter fun c => !isBlank c := by
  induction h with
  | nil blank =>
    rw [List.flatMap_nil, eq_comm, List.filter_eq_nil_iff]
    simpa using blank
  | @cons gap token tokens rest blank stops _ ih =>
    rw [List.forall_mem_cons] at hlexeme
    have hgap : (gap.filter fun c => !isBlank c) = [] := by
      rw [List.filter_eq_nil_iff]
      simpa using blank
    have htext : (token.text.toList.filter fun c => !isBlank c) = token.text.toList := by
      rw [List.filter_eq_self]
      simpa using hlexeme.1.isBlank_eq_false
    rw [List.flatMap_cons, ih hlexeme.2, List.filter_append, List.filter_append, hgap, htext,
      List.nil_append]

theorem flatMap_text_scan (code : List Char) :
    ((scan code).flatMap fun token => token.text.toList) = code.filter fun c => !isBlank c :=
  (covers_scan code).flatMap_text isLexeme_of_mem_scan

/-- There is a token in a text exactly if there is a character in it that is not blank. -/
theorem scan_ne_nil_iff {code : List Char} : scan code ≠ [] ↔ ∃ c ∈ code, isBlank c = false := by
  constructor
  · intro h
    obtain ⟨token, tokens, hscan⟩ := List.exists_cons_of_ne_nil h
    have hmem : token ∈ scan code := by simp [hscan]
    have hlexeme := isLexeme_of_mem_scan token hmem
    obtain ⟨c, tail, htext, hblank⟩ := hlexeme.exists_cons
    exact ⟨c, (text_infix_of_mem_scan token hmem).subset (by simp [htext]), hblank⟩
  · rintro ⟨c, hc, hblank⟩ hscan
    have htexts := flatMap_text_scan code
    rw [hscan, List.flatMap_nil, eq_comm, List.filter_eq_nil_iff] at htexts
    have hvisible := htexts c hc
    simp [hblank] at hvisible

/-- What is known of the tokens of a text without `//`, which settles them. -/
structure AreTokensOf (tokens : List Token) (code : List Char) : Prop where
  /-- Nothing is lost but blanks. -/
  texts : (tokens.flatMap fun token => token.text.toList) = code.filter fun c => !isBlank c
  lexemes : ∀ token ∈ tokens, token.IsLexeme
  /-- An operator is written as one of ten characters. -/
  operators : ∀ op, .operator op ∈ tokens → op.toChar ∈ "=;()@+-&|!".toList
  noSlashes : ∀ token ∈ tokens, ¬ ['/', '/'] <:+: token.text.toList
  /-- Only blanks are between them, and none could be longer. -/
  covers : Covers tokens code
  unique : ∀ others, Covers others code → (∀ token ∈ others, token.IsLexeme) → others = tokens

theorem areTokensOf_scan {code : List Char} (h : ¬ ['/', '/'] <:+: code) :
    AreTokensOf (scan code) code where
  texts := flatMap_text_scan code
  lexemes := isLexeme_of_mem_scan
  operators op _ := by cases op <;> decide
  noSlashes token htoken hslashes := h (hslashes.trans (text_infix_of_mem_scan token htoken))
  covers := (scan_eq_iff_covers.mp rfl).1
  unique _ hcovers hlexeme := (scan_eq_iff_covers.mpr ⟨hcovers, hlexeme⟩).symm

end Token

/-! ## Main result -/

namespace Line

/-- A source has its lines in order, and none of them is without tokens. Each text between line feeds
    has one code, and a line exactly if this code holds a character that is not blank. The tokens of
    the line are all that the code holds but blanks, cut in the only way in which each token has the
    form of its class and is as long as it can be. -/
theorem ofSource_covers (source : String) :
    (ofSource source).Pairwise (fun line next => line.number < next.number) ∧
    (∀ line ∈ ofSource source, line.tokens ≠ [] ∧
      ∃ index < (source.toList.splitOnP (· == '\n')).length, line.number = index + 1) ∧
    ∀ index text, (source.toList.splitOnP (· == '\n'))[index]? = some text →
      ∃ code, (∀ other, IsCodeOf other text ↔ other = code) ∧
        ((∃ line ∈ ofSource source, line.number = index + 1) ↔ ∃ c ∈ code, isBlank c = false) ∧
        ∀ line ∈ ofSource source, line.number = index + 1 → Token.AreTokensOf line.tokens code := by
  refine ⟨pairwise_ofSource source, fun line hline => ?_, fun index text htext => ?_⟩
  · obtain ⟨index, text, htext, hnumber, hsome⟩ := mem_ofSource_iff.mp hline
    have hindex := (List.getElem?_eq_some_iff.mp htext).1
    exact ⟨(ofText?_eq_some_iff.mp hsome).2.2, index, hindex, hnumber⟩
  · -- The line with this number is the one that is made of this text.
    have htokens : ∀ line ∈ ofSource source, line.number = index + 1 →
        line.tokens = Token.scan (beforeComment text) := by
      intro line hline hnumber
      obtain ⟨place, other, hother, hplace, hsome⟩ := mem_ofSource_iff.mp hline
      obtain rfl : place = index := by omega
      rw [htext] at hother
      cases hother
      exact (ofText?_eq_some_iff.mp hsome).2.1
    refine ⟨beforeComment text, fun _ => isCodeOf_iff, ?_, fun line hline hnumber => ?_⟩
    · rw [← Token.scan_ne_nil_iff]
      constructor
      · rintro ⟨line, hline, hnumber⟩
        rw [← htokens line hline hnumber]
        exact (mem_ofSource_iff.mp hline).tokens_ne_nil
      · intro hne
        exact ⟨⟨index + 1, Token.scan (beforeComment text)⟩,
          mem_ofSource_iff.mpr ⟨index, text, htext, rfl, ofText?_eq_some_iff.mpr ⟨rfl, rfl, hne⟩⟩,
          rfl⟩
    · rw [htokens line hline hnumber]
      exact Token.areTokensOf_scan (not_slashes_infix_beforeComment text)

/-- A number with a name right behind it, a stray slash before others, and two comments. -/
theorem ofSource_covers_mixed :
    let source := "\n 12ab_1 =A/#+ //c\r\n// only"
    (∃ line ∈ ofSource source, line.number = 2 ∧
      Token.AreTokensOf line.tokens " 12ab_1 =A/#+ ".toList) ∧
    ∀ line ∈ ofSource source, line.number ≠ 3 := by
  intro source
  have htexts : source.toList.splitOnP (· == '\n') =
      [[], " 12ab_1 =A/#+ //c\r".toList, "// only".toList] := by
    decide +kernel
  obtain ⟨-, -, hcovers⟩ := ofSource_covers source
  obtain ⟨code, hcode, hline, htokens⟩ := hcovers 1 " 12ab_1 =A/#+ //c\r".toList
    (by rw [htexts]; rfl)
  obtain rfl : " 12ab_1 =A/#+ ".toList = code :=
    (hcode _).mp (.inr ⟨"c\r".toList, by decide, by decide⟩)
  obtain ⟨line, hmem, hnumber⟩ := hline.mpr ⟨'1', by decide, by decide⟩
  refine ⟨⟨line, hmem, hnumber, htokens line hmem hnumber⟩, fun other hother hlast => ?_⟩
  obtain ⟨remark, hremark, hnone, -⟩ := hcovers 2 "// only".toList (by rw [htexts]; rfl)
  obtain rfl : [] = remark := (hremark _).mp (.inr ⟨" only".toList, by decide, by decide⟩)
  obtain ⟨c, hc, -⟩ := hnone.mp ⟨other, hother, hlast⟩
  cases hc

end Line

end HackAssembler
