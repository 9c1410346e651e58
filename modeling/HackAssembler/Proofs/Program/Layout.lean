/-
  HackAssembler.Proofs.Program.Layout

  Assembling does not depend on the layout of a source. The tokens of a source may be written down
  with other blanks, comments and empty lines; what comes out is the same program or the same
  error, on the lines where the tokens stand then.
-/
import HackAssembler.Proofs.Line.Layout
import HackAssembler.Proofs.Program.Renumbering

namespace HackAssembler

/-- Lines with the same tokens differ in their numbers. -/
theorem Line.eq_map_renumber {place : Nat → Nat} {lines others : List Line}
    (htokens : others.map Line.tokens = lines.map Line.tokens)
    (hnumbers : others.map Line.number = lines.map fun line => place line.number) :
    others = lines.map (Line.renumber place) := by
  induction lines generalizing others with
  | nil => exact List.map_eq_nil_iff.mp htokens
  | cons line lines ih =>
    cases others with
    | nil => cases htokens
    | cons other others =>
      rw [List.map_cons, List.map_cons, List.cons.injEq] at htokens hnumbers
      have hfirst : other = line.renumber place := by
        rw [Line.renumber, ← hnumbers.1, ← htokens.1]
      rw [List.map_cons, ih htokens.2 hnumbers.2, hfirst]

/-- Lines at other places are assembled alike. -/
theorem Program.agreesUpTo_map_renumber (place : Nat → Nat) (lines : List Line) :
    AgreesUpTo place (ofLines lines).result (ofLines (lines.map (Line.renumber place))).result := by
  apply agreesUpTo_of_sameUpTo
  rw [List.forall₂_map_right_iff, List.forall₂_same]
  intro line _
  exact line.sameUpTo_renumber place

/-- A source that is laid out in another way has the same token lists on its lines, and is
    assembled to the same program or rejected with the same error, up to the numbers of the lines.
    With carriage returns before the line feeds even the numbers are the same. -/
theorem Program.assemble_layout :
    (∀ source other : String,
      SourceLayout ((Line.ofSource source).map Line.tokens)
        (other.toList.splitOnP (· == '\n')) →
      ∃ place : Nat → Nat,
        Line.ofSource other = (Line.ofSource source).map (Line.renumber place) ∧
        AgreesUpTo place (assemble source).result (assemble other).result) ∧
    ∀ source : String,
      Line.ofSource (String.ofList (withReturns source.toList)) = Line.ofSource source := by
  refine ⟨?_, Line.ofSource_withReturns⟩
  intro source other hlayout
  have htokens := Line.map_tokens_ofSource_of_layout hlayout
  have hlength : (Line.ofSource source).length =
      ((Line.ofSource other).map Line.number).length := by
    have hsame := congrArg List.length htokens
    rw [List.length_map, List.length_map] at hsame
    rw [List.length_map, hsame]
  obtain ⟨place, hplace⟩ := Line.exists_place source hlength
  have hlines := Line.eq_map_renumber htokens hplace.symm
  refine ⟨place, hlines, ?_⟩
  rw [assemble, assemble, hlines]
  exact agreesUpTo_map_renumber place _

/-- Wide blanks, comments that stand close or apart, empty lines and carriage returns. -/
theorem Program.assemble_layout_wide :
    let source := "@2//two\nD=A"
    let other := "\n \u00a0@\t2 // 2\r\n//none\nD\u2003= A\r"
    SourceLayout ((Line.ofSource source).map Line.tokens) (other.toList.splitOnP (· == '\n')) ∧
      ∃ place : Nat → Nat,
        Line.ofSource other = (Line.ofSource source).map (Line.renumber place) ∧
        AgreesUpTo place (assemble source).result (assemble other).result := by
  intro source other
  have hlists : (Line.ofSource source).map Line.tokens =
      [[.operator .atSign, .number "2"],
        [.identifier "D", .operator .assign, .identifier "A"]] := by
    decide +kernel
  have htexts : other.toList.splitOnP (· == '\n') =
      [[] ++ [],
        [' ', '\u00a0'] ++ ((Token.operator .atSign).text.toList ++ ['\t'] ++
          ((Token.number "2").text.toList ++ ([' '] ++ ['/', '/', ' ', '2', '\r']))),
        [] ++ ['/', '/', 'n', 'o', 'n', 'e'],
        [] ++ ((Token.identifier "D").text.toList ++ ['\u2003'] ++
          ((Token.operator .assign).text.toList ++ [' '] ++
            ((Token.identifier "A").text.toList ++ ['\r'])))] := by
    decide +kernel
  have hempty : IsGap [] := by decide
  have hlayout : SourceLayout ((Line.ofSource source).map Line.tokens)
      (other.toList.splitOnP (· == '\n')) := by
    rw [hlists, htexts]
    refine .skip (.blank hempty (.inl rfl)) (.cons (by simp) (.tokens (by decide) ?_)
      (.skip (.blank hempty (.inr ⟨_, rfl, by decide⟩)) (.cons (by simp) (.tokens hempty ?_) .nil)))
    · exact .cons (by decide) (by decide) (.last (.comment (by decide) (by decide)
        (.inr ⟨_, rfl, by decide⟩)))
    · exact .cons (by decide) (by decide) (.cons (by decide) (by decide) (.last (.gap (by decide))))
  exact ⟨hlayout, assemble_layout.1 source other hlayout⟩

end HackAssembler
