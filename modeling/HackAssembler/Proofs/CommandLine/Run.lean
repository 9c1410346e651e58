/-
  HackAssembler.Proofs.CommandLine.Run

  What a call of the command line comes to. Arguments that name an input and an output do what
  assembling this input does, whatever else they ask for: the tree is the one that it leaves, and
  the exit code tells whether it succeeded. The flags only decide what is shown
  (`run_depends_on_paths`).
-/
import HackAssembler.CommandLine.Run
import HackAssembler.FileTree
import HackAssembler.Proofs.CommandLine.Spelling

namespace HackAssembler.CommandLine

open Program (assembleFile Written)

/-! ## Outcomes -/

theorem exitCode_outcomeOf_of_ok (options : Options) {report : Report Written} {written : Written}
    (h : report.result = .ok written) : (outcomeOf options report).exitCode = 0 := by
  unfold outcomeOf
  rw [h]

/-- After a failure there is nothing behind the log. -/
theorem outcomeOf_of_error (options : Options) {report : Report Written} {error : Error}
    (h : report.result = .error error) :
    (outcomeOf options report).exitCode = 1 ∧ (outcomeOf options report).output = "" := by
  unfold outcomeOf
  rw [h]
  exact ⟨rfl, rfl⟩

/-! ## Calls -/

section Calls

variable {fs : FileSystem (StateM FileTree)} {before : FileTree} {arguments : List String}
  {input : Path} {output : Option Path}

/-- The arguments of a request to assemble are carried out by assembling its input. -/
theorem run_of_assemble {options : Options}
    (h : Request.ofArguments arguments = .assemble options) :
    (@run (StateM FileTree) _ fs arguments).run before =
      (outcomeOf options
          ((@assembleFile (StateM FileTree) _ fs options.input options.output).run before).1,
        ((@assembleFile (StateM FileTree) _ fs options.input options.output).run before).2) := by
  rw [run, h]
  rfl

/-- Other arguments are answered without a look at the files. -/
theorem run_of_not_assemble (h : ∀ options, Request.ofArguments arguments ≠ .assemble options) :
    ((@run (StateM FileTree) _ fs arguments).run before).2 = before := by
  rw [run]
  cases hrequest : Request.ofArguments arguments with
  | assemble options => exact absurd hrequest (h options)
  | help => rfl
  | version => rfl
  | misuse => rfl

/-- A call comes to what assembling an input comes to: the same tree, and a code that tells whether
    it succeeded. If it did not then only log lines are printed. -/
structure Performs (fs : FileSystem (StateM FileTree)) (before : FileTree) (input : Path)
    (output : Option Path) (outcome : Outcome) (after : FileTree) : Prop where
  tree : after = ((@assembleFile (StateM FileTree) _ fs input output).run before).2
  exitCode : outcome.exitCode = 0 ∨ outcome.exitCode = 1
  succeeds : outcome.exitCode = 0 ↔ ∃ written,
    ((@assembleFile (StateM FileTree) _ fs input output).run before).1.result = .ok written
  failure : outcome.exitCode = 1 →
    ∀ stamp, outcome.text stamp = String.join (outcome.log.map (logLine stamp))

/-- There is one code and one tree for an input and an output. -/
theorem Performs.unique {outcome outcome' : Outcome} {after after' : FileTree}
    (h : Performs fs before input output outcome after)
    (h' : Performs fs before input output outcome' after') :
    outcome.exitCode = outcome'.exitCode ∧ after = after' := by
  have hzero : outcome.exitCode = 0 ↔ outcome'.exitCode = 0 := h.succeeds.trans h'.succeeds.symm
  have hcode := h.exitCode
  have hcode' := h'.exitCode
  exact ⟨by omega, h.tree.trans h'.tree.symm⟩

/-- Whatever else arguments ask for, they perform what assembling their input does. -/
theorem performs_of_names (h : Names arguments input output) :
    Performs fs before input output ((@run (StateM FileTree) _ fs arguments).run before).1
      ((@run (StateM FileTree) _ fs arguments).run before).2 := by
  obtain ⟨options, hrequest, rfl, rfl⟩ := names_iff.mp h
  rw [run_of_assemble hrequest]
  cases hresult :
      ((@assembleFile (StateM FileTree) _ fs options.input options.output).run before).1.result with
  | ok written =>
    have hcode := exitCode_outcomeOf_of_ok options hresult
    exact {
      tree := rfl
      exitCode := .inl hcode
      succeeds := ⟨fun _ => ⟨written, hresult⟩, fun _ => hcode⟩
      failure := fun hfailed => by
        rw [hcode] at hfailed
        cases hfailed }
  | error error =>
    obtain ⟨hcode, houtput⟩ := outcomeOf_of_error options hresult
    refine ⟨rfl, .inr hcode, ⟨fun hzero => ?_, ?_⟩, fun _ stamp => ?_⟩
    · rw [hcode] at hzero
      cases hzero
    · rintro ⟨written, hwritten⟩
      rw [hresult] at hwritten
      cases hwritten
    · rw [Outcome.text, houtput, String.append_empty]

end Calls

/-! ## Main result -/

/-- What a call does depends on the paths that its arguments name, and on nothing else in them.
    Arguments that name the same input and the same output, or none, lead to the same exit code and
    the same tree, namely those of assembling the input; all arguments that are accepted name an
    input; and all others leave the tree as it is. -/
theorem run_depends_on_paths (fs : FileSystem (StateM FileTree)) (before : FileTree) :
    (∀ arguments, (∃ options, Request.ofArguments arguments = .assemble options) ↔
      ∃ input output, Names arguments input output) ∧
    (∀ arguments input output, Names arguments input output →
      Performs fs before input output ((@run (StateM FileTree) _ fs arguments).run before).1
        ((@run (StateM FileTree) _ fs arguments).run before).2) ∧
    (∀ arguments others input output, Names arguments input output → Names others input output →
      ((@run (StateM FileTree) _ fs arguments).run before).1.exitCode =
        ((@run (StateM FileTree) _ fs others).run before).1.exitCode ∧
      ((@run (StateM FileTree) _ fs arguments).run before).2 =
        ((@run (StateM FileTree) _ fs others).run before).2) ∧
    ∀ arguments, (¬ ∃ input output, Names arguments input output) →
      ((@run (StateM FileTree) _ fs arguments).run before).2 = before := by
  have haccepted (arguments : List String) :
      (∃ options, Request.ofArguments arguments = .assemble options) ↔
        ∃ input output, Names arguments input output := by
    constructor
    · rintro ⟨options, hrequest⟩
      exact ⟨_, _, names_iff.mpr ⟨options, hrequest, rfl, rfl⟩⟩
    · rintro ⟨input, output, hnames⟩
      obtain ⟨options, hrequest, -⟩ := names_iff.mp hnames
      exact ⟨options, hrequest⟩
  refine ⟨haccepted, fun _ _ _ hnames => performs_of_names hnames, ?_, ?_⟩
  · intro arguments others input output hnames hothers
    exact (performs_of_names hnames).unique (performs_of_names hothers)
  · intro arguments hnone
    exact run_of_not_assemble fun options hrequest =>
      hnone ((haccepted arguments).mp ⟨options, hrequest⟩)

/-- Two spellings of one request, and an output that has no path because of the `--` behind it. -/
theorem run_depends_on_paths_spelled :
    let before := FileTree.ofEntries [] [(⟨"Add.asm"⟩, .file "@2\n".toUTF8)]
    let first := (run (m := StateM FileTree) ["Add.asm", "-vds", "-o=Add.out"]).run before
    let second := (run (m := StateM FileTree) ["-o", "Add.out", "--", "Add.asm"]).run before
    let refused := (run (m := StateM FileTree) ["-vo", "--", "Add.asm"]).run before
    (first.1.exitCode = second.1.exitCode ∧ first.2 = second.2) ∧
      Performs inferInstance before ⟨"Add.asm"⟩ (some ⟨"Add.out"⟩) first.1 first.2 ∧
      first.1.exitCode = 0 ∧ refused.2 = before := by
  intro before first second refused
  obtain ⟨haccepted, hperforms, hsame, hother⟩ := run_depends_on_paths inferInstance before
  have hinput : IsPlain "Add.asm" := .inr (by decide)
  have hpath : IsPlain "Add.out" := .inr (by decide)
  have hflags : "-vds".toList = '-' :: [Flag.louder, .words, .symbols].map Flag.letter := by decide
  have hattached : "-o=Add.out".toList =
      '-' :: (([] : List Flag).map Flag.letter ++ 'o' :: (['='] ++ "Add.out".toList)) := by decide
  have hseparate : "-o".toList = '-' :: (([] : List Flag).map Flag.letter ++ ['o']) := by decide
  have hfirst : Names ["Add.asm", "-vds", "-o=Add.out"] ⟨"Add.asm"⟩ (some ⟨"Add.out"⟩) :=
    ⟨_, .input hinput (.flags hflags (by simp)
      (.attached (by simp) (by decide) (by decide) hattached .nil)), rfl, rfl, by decide, by decide⟩
  have hsecond : Names ["-o", "Add.out", "--", "Add.asm"] ⟨"Add.asm"⟩ (some ⟨"Add.out"⟩) :=
    ⟨_, .separate hpath hseparate (.inputs ["Add.asm"]), rfl, rfl, by decide, by decide⟩
  have hrefused : ¬ ∃ input output, Names ["-vo", "--", "Add.asm"] input output := by
    rw [← haccepted]
    rintro ⟨options, hrequest⟩
    have hmisuse : Request.ofArguments ["-vo", "--", "Add.asm"] = .misuse := by decide
    rw [hmisuse] at hrequest
    cases hrequest
  exact ⟨hsame _ _ _ _ hfirst hsecond, hperforms _ _ _ hfirst, by decide +kernel,
    hother _ hrefused⟩

end HackAssembler.CommandLine
