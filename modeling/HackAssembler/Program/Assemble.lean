/-
  HackAssembler.Program.Assemble

  Assembling a source. The lines are gone through twice: first for the labels, since a label may
  be used before it is declared, then for the words. An error of the first turn therefore comes
  before any error of the second, whatever their lines.
-/
import HackAssembler.Program.Labels
import HackAssembler.Program.Emission

namespace HackAssembler.Program

/-- The program of some source lines. -/
def ofLines (lines : List Line) : Report Program := do
  Report.tell .collectingLabels
  let labels ← Labels.ofLines lines
  Report.tell .emittingCode
  let emission ← Emission.ofLines labels.symbols lines
  Report.tell (.assembled emission.words.size emission.symbols.size)
  return ⟨emission.words.toList, emission.symbols⟩

/-- The program of a source text. -/
def assemble (source : String) : Report Program :=
  ofLines (Line.ofSource source)

end HackAssembler.Program
