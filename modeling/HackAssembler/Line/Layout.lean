/-
  HackAssembler.Line.Layout

  The ways to write down tokens. Blanks may stand before, between and after the tokens of a line,
  and have to stand between them; a comment may follow behind a blank; and lines without tokens may
  stand anywhere.
-/
import HackAssembler.Text.Blank
import HackAssembler.Token

namespace HackAssembler

/-- Blanks within a line. -/
def IsGap (text : List Char) : Prop :=
  ∀ c ∈ text, Text.isBlank c = true ∧ c ≠ '\n'

instance (text : List Char) : Decidable (IsGap text) :=
  List.decidableBAll (fun c => Text.isBlank c = true ∧ c ≠ '\n') text

/-- A comment with its slashes, or no comment. -/
def IsComment (text : List Char) : Prop :=
  text = [] ∨ ∃ rest, text = '/' :: '/' :: rest ∧ '\n' ∉ rest

/-- The end of a line: blanks, and behind at least one of them perhaps a comment. -/
inductive IsLineEnd : List Char → Prop where
  | gap {gap : List Char} (blank : IsGap gap) : IsLineEnd gap
  | comment {gap comment : List Char} (blank : IsGap gap) (apart : gap ≠ [])
      (remark : IsComment comment) : IsLineEnd (gap ++ comment)

/-- Tokens in order with a gap between neighbours, and the end of the line after the last. -/
inductive Writes : List Token → List Char → Prop where
  | last {token : Token} {rest : List Char} (ending : IsLineEnd rest) :
      Writes [token] (token.text.toList ++ rest)
  | cons {token : Token} {gap : List Char} {tokens : List Token} {rest : List Char}
      (blank : IsGap gap) (apart : gap ≠ []) (others : Writes tokens rest) :
      Writes (token :: tokens) (token.text.toList ++ gap ++ rest)

/-- The text of a line with these tokens, or of a line without tokens. -/
inductive LineLayout : List Token → List Char → Prop where
  | blank {gap comment : List Char} (space : IsGap gap) (remark : IsComment comment) :
      LineLayout [] (gap ++ comment)
  | tokens {gap : List Char} {tokens : List Token} {rest : List Char} (space : IsGap gap)
      (written : Writes tokens rest) : LineLayout tokens (gap ++ rest)

/-- The texts of lines that hold these token lists in order, with lines without tokens anywhere
    between them. -/
inductive SourceLayout : List (List Token) → List (List Char) → Prop where
  | nil : SourceLayout [] []
  | skip {lists : List (List Token)} {text : List Char} {texts : List (List Char)}
      (line : LineLayout [] text) (others : SourceLayout lists texts) :
      SourceLayout lists (text :: texts)
  | cons {tokens : List Token} {lists : List (List Token)} {text : List Char}
      {texts : List (List Char)} (held : tokens ≠ []) (line : LineLayout tokens text)
      (others : SourceLayout lists texts) :
      SourceLayout (tokens :: lists) (text :: texts)

/-- The text with a carriage return before each line feed. -/
def withReturns (text : List Char) : List Char :=
  text.flatMap fun c => if c = '\n' then ['\r', '\n'] else [c]

end HackAssembler
