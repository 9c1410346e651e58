/-
  HackAssembler.Proofs.Program.Placement

  Line numbers from the source to what comes out of it. The number of a line, of each word that comes
  from it and of an error on it counts the line feeds before the line. This holds whatever the lines
  before it are; lines without tokens change nothing but the numbers.
-/
import HackAssembler.Proofs.Line.Append
import HackAssembler.Proofs.Program.Assemble
import HackAssembler.Proofs.Program.Layout

namespace HackAssembler

/-- A word comes from a line of a source, which has a number of line feeds before it. -/
def Word.ComesFrom (source : String) (line : Line) (word : Word) : Prop :=
  Command.ofTokens line.tokens = .ok word.command ∧
    ∃ before, line.StandsBehind source before ∧ word.line = before.count '\n' + 1

namespace Program

/-- The words of a program stand at the side of the lines that hold its instructions. -/
theorem Means.forall₂_lines {lines : List Line} {statements : List Statement} {program : Program}
    (hmeans : Means statements program) (hreads : List.Forall₂ Line.Reads lines statements) :
    List.Forall₂ (fun line word => ∃ entry, line.Reads entry.1 ∧ word.BelongsTo statements entry)
      (lines.filter Line.holdsInstruction) program.words := by
  -- An instruction is at the side of its line, and of its word together with its place.
  have hlines : List.Forall₂ (fun line (entry : Statement × Nat) => line.Reads entry.1)
      (lines.filter Line.holdsInstruction) (Statement.instructions statements).zipIdx := by
    rw [← List.forall₂_map_right_iff, List.zipIdx_map_fst]
    exact Line.forall₂_instructions hreads
  exact forall₂_comp hlines hmeans.words

/-- The words of a program come from the lines of its source that hold instructions. -/
theorem forall₂_comesFrom {source : String} {program : Program}
    (h : (assemble source).result = .ok program) :
    List.Forall₂ (Word.ComesFrom source) ((Line.ofSource source).filter Line.holdsInstruction)
      program.words := by
  obtain ⟨statements, haccept, hmeans⟩ := acceptance_of_assemble h
  have hmem : ∀ line ∈ (Line.ofSource source).filter Line.holdsInstruction,
      line ∈ Line.ofSource source := fun line hline => List.mem_of_mem_filter hline
  refine ((List.forall₂_and_left _ _).mpr ⟨hmem, hmeans.forall₂_lines haccept.reads⟩).imp ?_
  rintro line word ⟨hline, entry, hreads, hbelongs⟩
  obtain ⟨before, hstands⟩ := Line.mem_ofSource_iff_standsBehind.mp hline
  refine ⟨by rw [hbelongs.command, hreads.2], before, hstands, ?_⟩
  rw [hbelongs.line, hreads.1, hstands.number]

/-- Each word of a program has a line of its own. -/
theorem nodup_map_line {source : String} {program : Program}
    (h : (assemble source).result = .ok program) : (program.words.map Word.line).Nodup := by
  obtain ⟨statements, haccept, hmeans⟩ := acceptance_of_assemble h
  have hsame : List.Forall₂ Eq
      (((Line.ofSource source).filter Line.holdsInstruction).map Line.number)
      (program.words.map Word.line) := by
    rw [List.forall₂_map_left_iff, List.forall₂_map_right_iff]
    refine (hmeans.forall₂_lines haccept.reads).imp ?_
    rintro line word ⟨entry, hreads, hbelongs⟩
    exact (hbelongs.line.trans hreads.1).symm
  rw [List.forall₂_eq_eq_eq] at hsame
  rw [← hsame]
  exact (List.pairwise_map.mpr ((Line.pairwise_ofSource source).filter _)).imp Nat.ne_of_lt

/-- Lines before a source that hold no token change nothing but the numbers of its lines. -/
theorem agreesUpTo_of_ofSource_eq_nil {source : String} (h : Line.ofSource source = [])
    (more : String) :
    AgreesUpTo (· + (source.toList.count '\n' + 1)) (assemble more).result
      (assemble (source ++ "\n" ++ more)).result := by
  rw [assemble, assemble, Line.ofSource_append, h, List.nil_append]
  exact agreesUpTo_map_renumber _ _

/-! ## Main result -/

/-- The lines of two texts with a line feed between them are those of the first, and then those of
    the second with all line feeds before them counted in their numbers. So the number of each line
    counts the line feeds before it; and so do the line numbers of the words, which come one after
    the other from the lines that hold instructions, and those of the errors. -/
theorem assemble_counts_lines (source : String) :
    (∀ more, Line.ofSource (source ++ "\n" ++ more) = Line.ofSource source ++
      (Line.ofSource more).map (Line.renumber (· + (source.toList.count '\n' + 1)))) ∧
    (∀ line, line ∈ Line.ofSource source ↔ ∃ before, line.StandsBehind source before) ∧
    (∀ program, (assemble source).result = .ok program →
      List.Forall₂ (Word.ComesFrom source)
        ((Line.ofSource source).filter Line.holdsInstruction) program.words) ∧
    (∀ error, (assemble source).result = .error error →
      ∃ line before, Rejection (Line.ofSource source) line error ∧
        line.StandsBehind source before ∧ error.line? = some (before.count '\n' + 1)) ∧
    (Line.ofSource source = [] → ∀ more,
      AgreesUpTo (· + (source.toList.count '\n' + 1)) (assemble more).result
        (assemble (source ++ "\n" ++ more)).result) := by
  refine ⟨Line.ofSource_append source, fun _ => Line.mem_ofSource_iff_standsBehind,
    fun _ => forall₂_comesFrom, fun error herror => ?_, agreesUpTo_of_ofSource_eq_nil⟩
  obtain ⟨line, hline⟩ := rejection_of_assemble herror
  obtain ⟨before, hstands⟩ := Line.mem_ofSource_iff_standsBehind.mp hline.mem
  exact ⟨line, before, hline, hstands, by rw [hline.line?, hstands.number]⟩

/-- A comment with a carriage return, a line of blanks and a comment that does not end, before a
    number that is too large. -/
theorem assemble_counts_lines_blank :
    (assemble ("// none\r\n \n//" ++ "\n" ++ "@1\r\n//\n@70000")).result =
      .error (.addressRange 6 "70000") := by
  obtain ⟨-, -, -, -, hblank⟩ := assemble_counts_lines "// none\r\n \n//"
  have hagrees := hblank (by decide +kernel) "@1\r\n//\n@70000"
  have hfault : (match (assemble "@1\r\n//\n@70000").result with
      | .ok _ => none
      | .error error => some error) = some (.addressRange 3 "70000") := by
    decide +kernel
  cases hresult : (assemble "@1\r\n//\n@70000").result with
  | ok program =>
    rw [hresult] at hfault
    cases hfault
  | error error =>
    rw [hresult] at hfault hagrees
    obtain rfl := Option.some.inj hfault
    generalize (assemble ("// none\r\n \n//" ++ "\n" ++ "@1\r\n//\n@70000")).result = other
      at hagrees ⊢
    cases hagrees
    rfl

end Program

end HackAssembler
