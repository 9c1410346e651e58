/-
  HackAssembler.Proofs.Program.File

  What is left of a file tree when assembling a file fails. Before the output is written nothing
  changes. A failed write takes back what it did: whatever step of it fails, the tree is the one
  that removing the temporary file from the tree of before would have left.

  The file system may refuse to write or to replace a file at any time, as long as it changes
  nothing then (`FileSystem.IsFaithful`).
-/
import HackAssembler.Program.File
import HackAssembler.Proofs.FileTree
import HackAssembler.Proofs.Program.Assemble

namespace HackAssembler

/-! ## File systems on trees -/

/-- A file system does to a tree what the operations of trees do. It may refuse to read, to write
    or to replace a file, and changes nothing then. It does not refuse to remove one. -/
structure FileSystem.IsFaithful (fs : FileSystem (StateM FileTree)) : Prop where
  read : ∀ path tree, ((fs.read path).run tree).2 = tree
  isPresent : ∀ path tree, ((fs.isPresent path).run tree).2 = tree
  write : ∀ path contents tree,
    (∃ next, tree.write path contents = .ok next ∧
      (fs.write path contents).run tree = (.ok (), next)) ∨
    ∃ fault, (fs.write path contents).run tree = (.error fault, tree)
  replace : ∀ source target tree,
    (∃ next, tree.replace source target = .ok next ∧
      (fs.replace source target).run tree = (.ok (), next)) ∨
    ∃ fault, (fs.replace source target).run tree = (.error fault, tree)
  remove : ∀ path tree, ((fs.remove path).run tree).2 = tree.without path

namespace FileTree

theorem run_change_of_ok {step : FileTree → Except FileFault FileTree} {tree next : FileTree}
    (h : step tree = .ok next) : (change step).run tree = (.ok (), next) := by
  simp only [change, StateT.run_bind, StateT.run_get, pure_bind, h]
  rfl

theorem run_change_of_error {step : FileTree → Except FileFault FileTree} {tree : FileTree}
    {fault : FileFault} (h : step tree = .error fault) :
    (change step).run tree = (.error fault, tree) := by
  simp only [change, StateT.run_bind, StateT.run_get, pure_bind, h]
  rfl

/-- A change is made, or refused. -/
theorem run_change (step : FileTree → Except FileFault FileTree) (tree : FileTree) :
    (∃ next, step tree = .ok next ∧ (change step).run tree = (.ok (), next)) ∨
      ∃ fault, (change step).run tree = (.error fault, tree) := by
  cases hstep : step tree with
  | ok next => exact .inl ⟨next, rfl, run_change_of_ok hstep⟩
  | error fault => exact .inr ⟨fault, run_change_of_error hstep⟩

/-- Trees are a file system that refuses nothing without need. -/
theorem isFaithful : FileSystem.IsFaithful inferInstance where
  read _ _ := rfl
  isPresent _ _ := rfl
  write path contents tree := run_change (fun tree => tree.write path contents) tree
  replace source target tree := run_change (fun tree => tree.replace source target) tree
  remove path tree := by
    show ((change fun tree => tree.remove path).run tree).2 = tree.without path
    rw [without]
    cases hremove : tree.remove path with
    | ok next => rw [run_change_of_ok hremove]
    | error fault => rw [run_change_of_error hremove]

end FileTree

/-- The steps of an action are run one after the other. -/
theorem run_bind_of_run {σ α β : Type} {action : StateM σ α} {next : α → StateM σ β}
    {before after : σ} {a : α} (h : action.run before = (a, after)) :
    (action >>= next).run before = (next a).run after := by
  rw [StateT.run_bind, h]
  rfl

namespace Program

/-! ## The temporary file -/

/-- A name with the extension of a temporary file is longer than the name itself. -/
theorem append_tmp_ne {name other : String} (h : other.length < name.length + 4) :
    name ++ ".tmp" ≠ other := by
  intro heq
  have hlength := congrArg String.length heq
  rw [String.length_append, show ".tmp".length = 4 from rfl] at hlength
  omega

theorem endsWith_temporaryPath (output : Path) :
    ∃ initial last, output.components = initial ++ [last] ∧
      (temporaryPath output).EndsWith initial (last ++ ".tmp") := by
  obtain ⟨initial, last, houtput, htemporary⟩ :=
    output.exists_components_extend ".tmp" (by decide)
  have hne (other : String) (h : other.length < 4) : last ++ ".tmp" ≠ other :=
    append_tmp_ne (by omega)
  refine ⟨initial, last, houtput, htemporary, ?_, hne ".." (by decide), ?_⟩
  · rw [Path.isIdle, Bool.or_eq_false_iff, beq_eq_false_iff_ne, beq_eq_false_iff_ne]
    exact ⟨hne "" (by decide), hne "." (by decide)⟩
  · have hlast : (temporaryPath output).text.toList.getLast? = some 'p' := by
      simp [temporaryPath, Path.extend]
    rw [hlast]
    decide

/-- A path that leads anywhere begins where its temporary file begins. -/
theorem start_temporaryPath {tree : FileTree} {output : Path}
    (hcheck : FileTree.checkPath output = .ok ()) :
    tree.start (temporaryPath output) = tree.start output := by
  have htext := FileTree.text_ne_empty_of_checkPath hcheck
  obtain ⟨c, rest, hlist⟩ := List.exists_cons_of_ne_nil (mt String.toList_eq_nil_iff.mp htext)
  simp [FileTree.start, temporaryPath, Path.extend, hlist]

/-- An output does not lead to the place of its temporary file. -/
theorem locate_ne_temporary {tree : FileTree} {output : Path} {place : FileTree.Place}
    (h : tree.place (temporaryPath output) = .ok place) :
    tree.locate output ≠ .ok place.location := by
  obtain ⟨initial, last, hcomponents, hends⟩ := endsWith_temporaryPath output
  obtain ⟨-, directory, hfollow, -, rfl⟩ := (FileTree.place_eq_ok_iff hends).mp h
  intro hlocate
  obtain ⟨hcheck, hlead⟩ := FileTree.locate_eq_ok_iff.mp hlocate
  -- Both paths come to the same directory, and part ways there.
  rw [hcomponents, FileTree.follow_append_eq_ok_iff] at hlead
  obtain ⟨between, hbetween, hlast⟩ := hlead
  rw [start_temporaryPath hcheck, hbetween] at hfollow
  obtain rfl := Except.ok.inj hfollow
  have hname : last ≠ last ++ ".tmp" := (append_tmp_ne (by omega)).symm
  exact FileTree.follow_singleton_ne hname hlast

/-! ## Trees after a failure -/

/-- A tree is as it was before, but for the temporary file of an output. -/
structure Spares (output : Path) (before after : FileTree) : Prop where
  workingDirectory : after.workingDirectory = before.workingDirectory
  /-- Every other place holds what it held. -/
  elsewhere : ∀ location, (∀ place, before.place (temporaryPath output) = .ok place →
    location ≠ place.location) → after.node? location = before.node? location
  /-- Every path that did not lead to the temporary file leads to what it led to. -/
  paths : ∀ path, (∀ location, before.locate (temporaryPath output) = .ok location →
    before.locate path ≠ .ok location) → after.at? path = before.at? path
  /-- The output is as it was. -/
  atOutput : after.at? output = before.at? output
  /-- There is no temporary file, but there may be a directory that was there before. -/
  atTemporary : after.at? (temporaryPath output) =
    match before.at? (temporaryPath output) with
    | some .directory => some .directory
    | _ => none

/-- A temporary file that is removed spares the rest. -/
theorem spares_erase {output : Path} {before : FileTree} {place : FileTree.Place}
    {contents : ByteArray} (hplace : before.place (temporaryPath output) = .ok place)
    (hname : FileTree.checkName place.name = .ok ())
    (hnode : before.node? place.location = some (.file contents)) :
    Spares output before (before.erase place.location) := by
  obtain ⟨initial, last, -, hends⟩ := endsWith_temporaryPath output
  have hfile : before.node? place.location ≠ some .directory := by simp [hnode]
  -- The place of the temporary file is no way to anywhere else, before and after.
  have hagree := FileTree.agreesOff_erase hfile
  have hfree := FileTree.node?_erase_self hfile
  have hlocate : before.locate (temporaryPath output) = .ok place.location :=
    (FileTree.locate_eq_ok_iff_place hends).mpr ⟨place, hplace, hname, by simp [hnode], rfl⟩
  have hbefore : before.at? (temporaryPath output) = some (.file contents) :=
    FileTree.at?_eq_some_iff.mpr ⟨_, hlocate, hnode⟩
  exact {
    workingDirectory := FileTree.workingDirectory_erase before place.location
    elsewhere := fun location hne => hagree.elsewhere location (hne place hplace)
    paths := fun path hne =>
      hagree.at?_eq (fun hleads => absurd hleads (hne _ hlocate)) fun _ => hfree
    atOutput :=
      hagree.at?_eq (fun hleads => absurd hleads (locate_ne_temporary hplace)) fun _ => hfree
    atTemporary := by
      rw [hbefore]
      exact FileTree.at?_eq_none_of_place hends (hagree.place_eq_ok hends hplace) hfree }

/-- Without a temporary file nothing has to change. -/
theorem spares_self {output : Path} {before : FileTree}
    (hnone : ∀ contents, before.at? (temporaryPath output) ≠ some (.file contents)) :
    Spares output before before where
  workingDirectory := rfl
  elsewhere _ _ := rfl
  paths _ _ := rfl
  atOutput := rfl
  atTemporary := by
    cases hat : before.at? (temporaryPath output) with
    | none => rfl
    | some node =>
      cases node with
      | directory => rfl
      | file contents => exact absurd hat (hnone contents)

/-- Removing the temporary file spares the rest. -/
theorem spares_without (output : Path) (before : FileTree) :
    Spares output before (before.without (temporaryPath output)) := by
  obtain ⟨initial, last, -, hends⟩ := endsWith_temporaryPath output
  rcases FileTree.without_cases hends before with
    ⟨place, contents, hplace, hname, hnode, hafter⟩ | ⟨hafter, hnone⟩
  · rw [hafter]
    exact spares_erase hplace hname hnode
  · rw [hafter]
    exact spares_self hnone

/-! ## Ways to end -/

/-- A file system gives the text of a file. -/
def ReadsText (fs : FileSystem (StateM FileTree)) (path : Path) (tree : FileTree)
    (source : String) : Prop :=
  ∃ contents, ((fs.read path).run tree).1 = .ok contents ∧ String.fromUTF8? contents = some source

/-- How assembling a file with a given output ends: with which result, and with which tree. -/
inductive Ends (fs : FileSystem (StateM FileTree)) (input output : Path) (before : FileTree) :
    Except Error Written → FileTree → Prop where
  /-- The source was not read. -/
  | unread (fault : FileFault) : Ends fs input output before (.error (.sourceRead input fault)) before
  /-- The source was read and has no program. -/
  | rejected {source : String} {error : Error} (reads : ReadsText fs input before source)
      (fails : (assemble source).result = .error error) :
      Ends fs input output before (.error error) before
  /-- There is a program, but the output was refused. -/
  | refused {source : String} {program : Program} (fault : FileFault)
      (reads : ReadsText fs input before source)
      (assembles : (assemble source).result = .ok program) :
      Ends fs input output before (.error (.outputWrite output fault))
        (before.without (temporaryPath output))
  /-- The program was written to the temporary file, which was moved to the output. -/
  | written {source : String} {program : Program} {middle after : FileTree}
      (reads : ReadsText fs input before source)
      (assembles : (assemble source).result = .ok program)
      (writes : before.write (temporaryPath output) program.toText.toUTF8 = .ok middle)
      (moves : middle.replace (temporaryPath output) output = .ok after) :
      Ends fs input output before (.ok ⟨program, output⟩) after

/-! ## Writing the output -/

section

variable [fs : FileSystem (StateM FileTree)] (hfs : fs.IsFaithful)
include hfs

/-- Writing an output writes the temporary file and moves it, or fails with the tree that removing
    the temporary file leaves. -/
theorem run_writeOutput (path : Path) (contents : ByteArray) (tree : FileTree) :
    (∃ middle next, tree.write (temporaryPath path) contents = .ok middle ∧
        middle.replace (temporaryPath path) path = .ok next ∧
        (writeOutput (m := StateM FileTree) path contents).run tree = (.ok (), next)) ∨
      ∃ fault, (writeOutput (m := StateM FileTree) path contents).run tree =
        (.error fault, tree.without (temporaryPath path)) := by
  obtain ⟨initial, last, -, hends⟩ := endsWith_temporaryPath path
  have hremove (tree : FileTree) : ∃ outcome, (fs.remove (temporaryPath path)).run tree =
      (outcome, tree.without (temporaryPath path)) :=
    ⟨_, Prod.ext rfl (hfs.remove _ tree)⟩
  rw [writeOutput]
  rcases hfs.write (temporaryPath path) contents tree with ⟨middle, hwrite, hrun⟩ | ⟨fault, hrun⟩
  · rw [run_bind_of_run hrun]
    rcases hfs.replace (temporaryPath path) path middle with
      ⟨next, hmove, hreplace⟩ | ⟨fault, hreplace⟩
    · refine .inl ⟨middle, next, hwrite, hmove, ?_⟩
      rw [run_bind_of_run hreplace]
      rfl
    · -- The temporary file was written, and is removed again.
      obtain ⟨outcome, hremoved⟩ := hremove middle
      refine .inr ⟨fault, ?_⟩
      rw [run_bind_of_run hreplace, run_bind_of_run hremoved,
        FileTree.without_of_write hends hwrite]
      rfl
  · -- Nothing was written, but there may be a file of an earlier run, which goes as well.
    obtain ⟨outcome, hremoved⟩ := hremove tree
    refine .inr ⟨fault, ?_⟩
    rw [run_bind_of_run hrun]
    show (fs.remove (temporaryPath path) >>= fun _ => pure (Except.error fault)).run tree = _
    rw [run_bind_of_run hremoved]
    rfl

/-- Reading a text leaves the tree as it is, and the text is what the bytes of the file say. -/
theorem run_readText (path : Path) (tree : FileTree) :
    ∃ result, (FileSystem.readText (m := StateM FileTree) path).run tree = (result, tree) ∧
      ∀ source, result = .ok source → ReadsText fs path tree source := by
  have hread : (fs.read path).run tree = (((fs.read path).run tree).1, tree) :=
    Prod.ext rfl (hfs.read path tree)
  rw [FileSystem.readText, run_bind_of_run hread]
  cases hcontents : ((fs.read path).run tree).1 with
  | error fault =>
    refine ⟨.error fault, rfl, ?_⟩
    intro source h
    cases h
  | ok contents =>
    cases htext : String.fromUTF8? contents with
    | none =>
      refine ⟨.error .notText, by simp only [htext]; rfl, ?_⟩
      intro source h
      cases h
    | some text =>
      refine ⟨.ok text, by simp only [htext]; rfl, ?_⟩
      intro source h
      cases h
      exact ⟨contents, hcontents, htext⟩

/-- The steps up to the output leave the tree alone, and the output is written or taken back. -/
theorem ends_of_run_assembleFile {input : Path} {output : Option Path} {before after : FileTree}
    {report : Report Written}
    (hrun : (assembleFile (m := StateM FileTree) input output).run before = (report, after)) :
    Ends fs input (output.getD (outputPath input)) before report.result after := by
  obtain ⟨result, hread, hreads⟩ := run_readText hfs input before
  rw [assembleFile, run_bind_of_run hread] at hrun
  cases result with
  | error fault =>
    cases hrun
    exact .unread fault
  | ok source =>
    have hsource := hreads source rfl
    cases hassemble : (assemble source).result with
    | error error =>
      simp only [hassemble] at hrun
      cases hrun
      exact .rejected hsource hassemble
    | ok program =>
      simp only [hassemble] at hrun
      have hpresent : (fs.isPresent (output.getD (outputPath input))).run before = (_, before) :=
        Prod.ext rfl (hfs.isPresent _ before)
      rw [run_bind_of_run hpresent] at hrun
      rcases run_writeOutput hfs (output.getD (outputPath input)) program.toText.toUTF8 before with
        ⟨middle, next, hwrite, hreplace, hwritten⟩ | ⟨fault, hrefused⟩
      · rw [run_bind_of_run hwritten] at hrun
        cases hrun
        exact .written hsource hassemble hwrite hreplace
      · rw [run_bind_of_run hrefused] at hrun
        cases hrun
        exact .refused fault hsource hassemble

/-- The tree is as it was, unless the output could not be written. -/
theorem run_assembleFile_of_error (input : Path) (output : Option Path) (tree : FileTree)
    {error : Error} {report : Report Written} {after : FileTree}
    (hrun : (assembleFile (m := StateM FileTree) input output).run tree = (report, after))
    (herror : report.result = .error error) :
    (after = tree ∧ ((∃ fault, error = .sourceRead input fault) ∨
      ∃ source, (assemble source).result = .error error)) ∨
    ∃ fault, error = .outputWrite (output.getD (outputPath input)) fault ∧
      after = tree.without (temporaryPath (output.getD (outputPath input))) := by
  have hends := ends_of_run_assembleFile hfs hrun
  rw [herror] at hends
  cases hends with
  | unread fault => exact .inl ⟨rfl, .inl ⟨fault, rfl⟩⟩
  | rejected reads fails => exact .inl ⟨rfl, .inr ⟨_, fails⟩⟩
  | refused fault reads assembles => exact .inr ⟨fault, rfl, rfl⟩

end

/-! ## Main result -/

/-- A failure damages nothing. An error before the output is written leaves the tree as it was, and
    an output that cannot be written leaves everything but the temporary file. -/
theorem assembleFile_spares (fs : FileSystem (StateM FileTree)) (hfs : fs.IsFaithful)
    (input : Path) (output : Option Path) (before : FileTree) {after : FileTree}
    {report : Report Written} {error : Error}
    (hrun : (@assembleFile (StateM FileTree) _ fs input output).run before = (report, after))
    (herror : report.result = .error error) :
    ((∀ path fault, error ≠ .outputWrite path fault) → after = before) ∧
      ∀ path fault, error = .outputWrite path fault →
        path = output.getD (outputPath input) ∧ Spares path before after := by
  rcases run_assembleFile_of_error hfs input output before hrun herror with
    ⟨rfl, ⟨fault, rfl⟩ | ⟨source, hassemble⟩⟩ | ⟨fault, rfl, rfl⟩
  · exact ⟨fun _ => rfl, fun path fault h => by cases h⟩
  · refine ⟨fun _ => rfl, fun path fault h => ?_⟩
    obtain ⟨line, hline⟩ := rejection_of_assemble hassemble
    have hnumber := hline.line?
    rw [h] at hnumber
    cases hnumber
  · refine ⟨fun h => absurd rfl (h _ fault), fun path other h => ?_⟩
    cases h
    exact ⟨rfl, spares_without _ _⟩

/-- A directory in the place of the output stays there, and the temporary file is removed. -/
theorem assembleFile_spares_directory :
    let before := FileTree.ofEntries []
      [(⟨"Add.asm"⟩, .file "@2\n".toUTF8), (⟨"Add.hack"⟩, .directory)]
    let run := (assembleFile (m := StateM FileTree) ⟨"Add.asm"⟩ none).run before
    run.1.result = .error (.outputWrite ⟨"Add.hack"⟩ .isDirectory) ∧
      Spares ⟨"Add.hack"⟩ before run.2 := by
  intro before run
  have hresult : run.1.result = .error (.outputWrite ⟨"Add.hack"⟩ .isDirectory) := by
    have hfails : run.1.result.map (fun _ => ()) =
        .error (.outputWrite ⟨"Add.hack"⟩ .isDirectory) := by
      decide +kernel
    cases hcase : run.1.result with
    | error error =>
      rw [hcase] at hfails
      exact congrArg Except.error (Except.error.inj hfails)
    | ok written =>
      rw [hcase] at hfails
      cases hfails
  have hspares := assembleFile_spares inferInstance FileTree.isFaithful ⟨"Add.asm"⟩ none before
    rfl hresult
  exact ⟨hresult, (hspares.2 _ _ rfl).2⟩

end Program

end HackAssembler
