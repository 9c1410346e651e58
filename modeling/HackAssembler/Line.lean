/-
  HackAssembler.Line

  Source lines. A line ends at a line feed and nowhere else; lines are numbered from 1. What
  follows the first `//` of a line is a comment. A line that holds no token outside its comment
  does not appear in the result, but it counts for the numbers of the lines after it.
-/
import HackAssembler.Token.Scan

namespace HackAssembler

/-! ## Comments -/

/-- The part of a line before its comment. -/
def beforeComment (text : List Char) : List Char :=
  go [] text
where
  /-- Looks for `//` in what is left; `read` holds the characters before it, the last first. -/
  go (read : List Char) : List Char → List Char
    | [] => read.reverse
    | '/' :: '/' :: _ => read.reverse
    | c :: rest => go (c :: read) rest

theorem beforeComment.go_append (read earlier left : List Char) :
    beforeComment.go (read ++ earlier) left = earlier.reverse ++ beforeComment.go read left := by
  fun_induction beforeComment.go read left with
  | case1 read => simp [beforeComment.go]
  | case2 read rest => simp [beforeComment.go]
  | case3 read c rest h ih => rw [beforeComment.go, ← List.cons_append, ih]; exact h

@[simp] theorem beforeComment_nil : beforeComment [] = [] := rfl

@[simp] theorem beforeComment_slashes (rest : List Char) : beforeComment ('/' :: '/' :: rest) = [] :=
  rfl

theorem beforeComment_cons {c : Char} {rest : List Char}
    (h : ¬(c = '/' ∧ rest.head? = some '/')) :
    beforeComment (c :: rest) = c :: beforeComment rest := by
  have step : beforeComment (c :: rest) = beforeComment.go [c] rest := by
    rw [beforeComment, beforeComment.go]
    rintro tail rfl rfl
    exact h ⟨rfl, rfl⟩
  rw [step]
  exact beforeComment.go_append [] [c] rest

/-! ## Lines -/

/-- A source line with the tokens it holds. -/
structure Line where
  /-- The place of the line in the source, counted from 1. -/
  number : Nat
  /-- The tokens from left to right. -/
  tokens : List Token
deriving DecidableEq, Repr

namespace Line

/-- The line at place `number` with the given text, unless there is no token in it. -/
def ofText? (number : Nat) (text : List Char) : Option Line :=
  match Token.scan (beforeComment text) with
  | [] => none
  | token :: tokens => some ⟨number, token :: tokens⟩

/-- The lines of a source text that hold tokens, in order. -/
def ofSource (source : String) : List Line :=
  ((source.toList.splitOnP (· == '\n')).zipIdx 1).filterMap fun (text, number) =>
    ofText? number text

end Line

end HackAssembler
