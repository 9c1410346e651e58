/-
  HackAssembler.Proofs.Line.Append

  Where the lines of a source are. The number of a line is one more than the number of line feeds
  before it (`Line.StandsBehind`). Of two texts with a line feed between them, the lines of the first
  stay where they are; those of the second come behind them, at numbers that count the lines of the
  first text too.
-/
import HackAssembler.Program.Renumbering
import HackAssembler.Proofs.Line

namespace HackAssembler.Line

/-! ## What stands before a line -/

/-- A line of a source has the tokens of the text behind `before`, up to the next line feed, and its
    number counts the line feeds in `before`. -/
structure StandsBehind (line : Line) (source : String) (before : List Char) : Prop where
  text : ∃ text, IsPieceBehind (· == '\n') source.toList before text ∧
    ofText? line.number text = some line
  number : line.number = before.count '\n' + 1

theorem mem_ofSource_iff_standsBehind {source : String} {line : Line} :
    line ∈ ofSource source ↔ ∃ before, line.StandsBehind source before := by
  rw [mem_ofSource_iff]
  constructor
  · rintro ⟨index, text, htext, hnumber, hline⟩
    obtain ⟨before, hpiece, hcount⟩ := exists_isPieceBehind htext
    exact ⟨before, ⟨text, hpiece, hline⟩, by rw [hnumber, List.count_eq_countP, hcount]⟩
  · rintro ⟨before, ⟨text, hpiece, hline⟩, hnumber⟩
    exact ⟨before.count '\n', text, hpiece.getElem?_splitOnP, hnumber, hline⟩

/-! ## A line feed between two texts -/

/-- A text that stands at another place has the same tokens. -/
theorem ofText?_add (number offset : Nat) (text : List Char) :
    ofText? (number + offset) text = (ofText? number text).map (renumber (· + offset)) := by
  unfold ofText?
  cases Token.scan (beforeComment text) <;> rfl

/-- The lines of two texts with a line feed between them. -/
theorem ofSource_append (source more : String) :
    ofSource (source ++ "\n" ++ more) =
      ofSource source ++ (ofSource more).map (renumber (· + (source.toList.count '\n' + 1))) := by
  have htext : (source ++ "\n" ++ more).toList = source.toList ++ '\n' :: more.toList := by
    simp
  rw [ofSource, htext, List.splitOnP_append_cons _ _ rfl, List.zipIdx_append, List.filterMap_append,
    length_splitOnP, ← List.count_eq_countP, Nat.add_comm 1, ← List.map_snd_add_zipIdx_eq_zipIdx,
    List.filterMap_map, ofSource, ofSource, List.map_filterMap]
  congr 2
  funext entry
  exact ofText?_add entry.2 _ entry.1

end HackAssembler.Line
