/-
  HackAssembler.Proofs.Program.SourceFile

  What becomes of the source file when no output path is given. A file is at a path that ends with
  its name. The default output and its temporary file are siblings of it with other names, unless
  the source is a `.hack` file itself, so assembling leaves the source alone.
-/
import HackAssembler.Proofs.Path.Extension
import HackAssembler.Proofs.Program.Delivery

namespace HackAssembler

namespace FileTree

variable {tree : FileTree} {path other : Path} {contents : ByteArray} {location : Location}

/-! ## Paths of files -/

/-- What a directory is in is a directory. -/
theorem node?_dropLast (hnode : tree.node? location = some .directory) :
    tree.node? location.dropLast = some .directory := by
  rcases List.eq_nil_or_concat location with rfl | ⟨before, name, rfl⟩
  · exact tree.node?_root
  · rw [List.concat_eq_append] at hnode ⊢
    rw [List.dropLast_concat]
    exact tree.closed before name (Option.isSome_of_eq_some hnode)

/-- A path that leads to a file ends with the name of the file. -/
theorem endsWith_of_file (hfile : tree.at? path = some (.file contents)) :
    ∃ initial name, path.EndsWith initial name := by
  obtain ⟨location, hlocate, hnode⟩ := at?_eq_some_iff.mp hfile
  obtain ⟨-, hfollow⟩ := locate_eq_ok_iff.mp hlocate
  rcases List.eq_nil_or_concat path.components with hnil | ⟨initial, last, hcomponents⟩
  · exact absurd hnil (by simp [Path.components, List.splitOnP_ne_nil])
  · rw [List.concat_eq_append] at hcomponents
    rw [hcomponents, follow_append_eq_ok_iff] at hfollow
    obtain ⟨directory, -, hlast⟩ := hfollow
    simp only [follow_cons_eq_ok_iff, follow_nil] at hlast
    -- The last step goes to the file, since staying in a directory or going up leads to none.
    rcases hlast with ⟨hdirectory, ⟨-, hstay⟩ | ⟨-, -, hup⟩ | ⟨hidle, hparent, -⟩⟩
    · rw [← Except.ok.inj hstay, hdirectory] at hnode
      cases hnode
    · rw [← Except.ok.inj hup, node?_dropLast hdirectory] at hnode
      cases hnode
    · have hne : last ≠ "" := by
        rintro rfl
        cases hidle
      exact ⟨initial, last, hcomponents, hidle, hparent,
        Path.getLast?_text_ne_of_components hcomponents hne⟩

/-- Siblings with different names do not lead to the same. -/
theorem locate_ne_of_sibling {initial : List String} {name sibling : String}
    (h : path.EndsWith initial name) (hother : other.components = initial ++ [sibling])
    (hne : sibling ≠ name) (hlocate : tree.locate path = .ok location) :
    tree.locate other ≠ .ok location := by
  obtain ⟨place, hplace, -, -, rfl⟩ := (locate_eq_ok_iff_place h).mp hlocate
  obtain ⟨-, directory, hfollow, -, rfl⟩ := (place_eq_ok_iff h).mp hplace
  have hstart : tree.start other = tree.start path := by
    simp only [start, Path.head?_text_congr hother h.components]
  intro hleads
  obtain ⟨-, hleads⟩ := locate_eq_ok_iff.mp hleads
  -- Both paths come to the same directory, and part ways there.
  rw [hother, follow_append_eq_ok_iff, hstart] at hleads
  obtain ⟨between, hbetween, hlast⟩ := hleads
  rw [hbetween] at hfollow
  obtain rfl := Except.ok.inj hfollow
  exact follow_singleton_ne hne hlast

end FileTree

namespace Program

variable {input : Path} {initial : List String} {name : String} {tree : FileTree}
  {location : Location}

/-! ## The default output -/

theorem components_outputPath (h : input.EndsWith initial name) :
    (outputPath input).components = initial ++ [Path.siblingName name "hack"] :=
  h.components_withExtension (by decide)

theorem components_temporaryPath_outputPath (h : input.EndsWith initial name) :
    (temporaryPath (outputPath input)).components =
      initial ++ [Path.siblingName name "hack" ++ ".tmp"] := by
  obtain ⟨initial', last, houtput, hends⟩ := endsWith_temporaryPath (outputPath input)
  rw [components_outputPath h] at houtput
  obtain ⟨rfl, hlast⟩ := List.append_inj' houtput rfl
  rw [hends.components, List.singleton_inj.mp hlast]

/-- The default output is another file than the source, unless the source has its extension. -/
theorem locate_outputPath_ne (h : input.EndsWith initial name)
    (hext : input.extension? ≠ some "hack") (hlocate : tree.locate input = .ok location) :
    tree.locate (outputPath input) ≠ .ok location := by
  rw [h.extension?] at hext
  exact FileTree.locate_ne_of_sibling h (components_outputPath h)
    (Path.siblingName_ne h.ne_parent hext) hlocate

/-- The temporary file of the default output is another file than the source. -/
theorem locate_temporaryPath_outputPath_ne (h : input.EndsWith initial name)
    (hlocate : tree.locate input = .ok location) :
    tree.locate (temporaryPath (outputPath input)) ≠ .ok location :=
  FileTree.locate_ne_of_sibling h (components_temporaryPath_outputPath h)
    (Path.siblingName_append_ne (by decide)) hlocate

/-- A file stays as it is if removing the temporary file does not touch it, and if it is in neither
    of the places of the output. -/
theorem Ends.at?_eq {fs : FileSystem (StateM FileTree)} {output : Path} {before after : FileTree}
    {result : Except Error Written} {contents : ByteArray}
    (h : Ends fs input output before result after)
    (hfile : before.at? input = some (.file contents))
    (hrefused : (before.without (temporaryPath output)).at? input = before.at? input)
    (hwritten : before.locate input ≠ before.locate output ∧
      before.locate input ≠ before.locate (temporaryPath output)) :
    after.at? input = some (.file contents) := by
  cases h with
  | unread fault => exact hfile
  | rejected reads fails => exact hfile
  | refused fault reads assembles => rw [hrefused, hfile]
  | written reads assembles writes moves =>
    obtain ⟨target, temporary, hsites, rfl⟩ := exists_sites writes moves
    exact hsites.at?_deliver _ hfile hwritten.1 hwritten.2

/-! ## Main result -/

/-- Assembling without an output path keeps the source. Whether it succeeds or fails, and whatever
    else there is in the tree, the file at the path of the source is there afterwards and has the
    contents of before, unless its extension is `hack`. Neither the default output nor its
    temporary file is ever the source. -/
theorem assembleFile_keeps_source (fs : FileSystem (StateM FileTree)) (hfs : fs.IsFaithful)
    {input : Path} {before after : FileTree} {report : Report Written} {contents : ByteArray}
    (hfile : before.at? input = some (.file contents))
    (hext : input.extension? ≠ some "hack")
    (hrun : (@assembleFile (StateM FileTree) _ fs input none).run before = (report, after)) :
    after.at? input = some (.file contents) ∧
      ∀ location, before.locate input = .ok location →
        before.locate (outputPath input) ≠ .ok location ∧
          before.locate (temporaryPath (outputPath input)) ≠ .ok location := by
  obtain ⟨location, hlocate, -⟩ := FileTree.at?_eq_some_iff.mp hfile
  obtain ⟨initial, name, hends⟩ := FileTree.endsWith_of_file hfile
  have hrun : Ends fs input (outputPath input) before report.result after :=
    ends_of_run_assembleFile hfs hrun
  have houtput := locate_outputPath_ne hends hext hlocate
  have htemporary := locate_temporaryPath_outputPath_ne hends hlocate
  refine ⟨hrun.at?_eq hfile ?_ ?_, fun other hother => ?_⟩
  · refine (spares_without _ _).paths input fun other hother hinput => ?_
    rw [hlocate] at hinput
    obtain rfl := Except.ok.inj hinput
    exact htemporary hother
  · rw [hlocate]
    exact ⟨houtput.symm, htemporary.symm⟩
  · rw [hlocate] at hother
    obtain rfl := Except.ok.inj hother
    exact ⟨houtput, htemporary⟩

/-- A source with the name of a temporary file stays beside its output, which has yet another
    name. -/
theorem assembleFile_keeps_source_tmp :
    let before := FileTree.ofEntries [] [(⟨"Add.hack.tmp"⟩, .file "@2\n".toUTF8)]
    let run := (assembleFile (m := StateM FileTree) ⟨"Add.hack.tmp"⟩ none).run before
    before.at? ⟨"Add.hack.tmp"⟩ = some (.file "@2\n".toUTF8) ∧
      (⟨"Add.hack.tmp"⟩ : Path).extension? ≠ some "hack" ∧
      run.2.at? ⟨"Add.hack.tmp"⟩ = some (.file "@2\n".toUTF8) ∧
      before.locate (outputPath ⟨"Add.hack.tmp"⟩) ≠ .ok ["Add.hack.tmp"] ∧
      before.locate (temporaryPath (outputPath ⟨"Add.hack.tmp"⟩)) ≠ .ok ["Add.hack.tmp"] := by
  intro before run
  have hlocate : before.locate ⟨"Add.hack.tmp"⟩ = .ok ["Add.hack.tmp"] := by decide +kernel
  have hnode : before.node? ["Add.hack.tmp"] = some (.file "@2\n".toUTF8) := by rfl
  have hfile := FileTree.at?_eq_some_iff.mpr ⟨_, hlocate, hnode⟩
  have hext : (⟨"Add.hack.tmp"⟩ : Path).extension? ≠ some "hack" := by decide +kernel
  have hkeeps := assembleFile_keeps_source inferInstance FileTree.isFaithful hfile hext rfl
  exact ⟨hfile, hext, hkeeps.1, hkeeps.2 _ hlocate⟩

end Program

end HackAssembler
