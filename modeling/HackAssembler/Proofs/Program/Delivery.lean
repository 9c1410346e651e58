/-
  HackAssembler.Proofs.Program.Delivery

  What is left of a file tree when assembling a file succeeds. The output and its temporary file
  have their places side by side in one directory (`Sites`). The tree afterwards is the one of
  before with the contents in the place of the output and nothing in the place of the temporary
  file (`deliver`), whatever either held: a source, an older output, or a file left behind.

  A tree that was delivered to has the same places, so the same contents can be delivered again, and
  then nothing changes.
-/
import HackAssembler.Proofs.FileTree.Replace
import HackAssembler.Proofs.Program.File

namespace HackAssembler

/-- A faithful file system that reads from a tree only what the tree holds. -/
structure FileSystem.IsTruthful (fs : FileSystem (StateM FileTree)) : Prop
    extends fs.IsFaithful where
  contents : ∀ path tree contents, ((fs.read path).run tree).1 = .ok contents →
    tree.read path = .ok contents

theorem FileTree.isTruthful : FileSystem.IsTruthful inferInstance where
  toIsFaithful := FileTree.isFaithful
  contents _ _ _ h := h

namespace Program

open FileTree (Place checkName)

/-! ## Places of an output -/

/-- The places of an output and of its temporary file. They are apart, and files can be put
    there. -/
structure Sites (output : Path) (tree : FileTree) (target temporary : Place) : Prop where
  placeOutput : tree.place output = .ok target
  placeTemporary : tree.place (temporaryPath output) = .ok temporary
  endsWith : ∃ initial, output.EndsWith initial target.name
  nameOutput : checkName target.name = .ok ()
  nameTemporary : checkName temporary.name = .ok ()
  apart : target.location ≠ temporary.location
  freeOutput : tree.node? target.location ≠ some .directory
  freeTemporary : tree.node? temporary.location ≠ some .directory

/-- The tree with a file in the first place and none in the second. -/
def deliver (tree : FileTree) (target temporary : Place) (contents : ByteArray) : FileTree :=
  (tree.erase temporary.location).insert target.location (.file contents)

variable {output : Path} {before middle after tree : FileTree} {target temporary : Place}
  {contents : ByteArray}

/-- The name of a temporary file is longer than that of its output. -/
theorem location_ne_temporary {initial : List String} (hends : output.EndsWith initial target.name)
    (htarget : tree.place output = .ok target)
    (htemporary : tree.place (temporaryPath output) = .ok temporary) :
    target.location ≠ temporary.location := by
  obtain ⟨initial', last, hcomponents, hends'⟩ := endsWith_temporaryPath output
  obtain ⟨-, directory, -, -, hplace⟩ := (FileTree.place_eq_ok_iff hends).mp htarget
  obtain ⟨-, directory', -, -, hplace'⟩ := (FileTree.place_eq_ok_iff hends').mp htemporary
  have hlast : last = target.name := by
    have hsame := hends.components.symm.trans hcomponents
    exact (List.singleton_inj.mp (List.append_inj' hsame rfl).2).symm
  intro heq
  rw [hplace, hplace', Place.location, Place.location] at heq
  have hname := List.singleton_inj.mp (List.append_inj' heq rfl).2
  rw [← hlast] at hname
  exact append_tmp_ne (by omega) hname.symm

/-- An output that was written and moved has its places, and was delivered there. -/
theorem exists_sites (hwrite : before.write (temporaryPath output) contents = .ok middle)
    (hmove : middle.replace (temporaryPath output) output = .ok after) :
    ∃ target temporary, Sites output before target temporary ∧
      after = deliver before target temporary contents := by
  obtain ⟨initial, last, -, hends⟩ := endsWith_temporaryPath output
  obtain ⟨temporary, htemporary, hname, hfree, rfl⟩ := (FileTree.write_eq_ok_iff hends).mp hwrite
  obtain ⟨first, target, moved, hfirst, htarget, hnamed, hslash, -, hname', hnode, hfree', rfl⟩ :=
    (FileTree.replace_eq_ok_iff hends).mp hmove
  have hroom := FileTree.hasRoom_of_place hends htemporary hfree
  have hagree := FileTree.agreesOff_insert hroom contents
  -- What is moved is what was written.
  have hsame : first = temporary := by
    rw [hagree.place_eq_ok hends htemporary] at hfirst
    exact (Except.ok.inj hfirst).symm
  subst hsame
  have hmoved : moved = contents := by
    rw [FileTree.node?_insert_self hroom] at hnode
    cases hnode
    rfl
  subst hmoved
  obtain ⟨initial', hends'⟩ := FileTree.exists_endsWith_of_place htarget hnamed hslash
  have hbefore := hagree.symm.place_eq_ok hends' htarget
  have hapart := location_ne_temporary hends' hbefore htemporary
  refine ⟨target, first, ⟨hbefore, htemporary, ⟨initial', hends'⟩, hname', hname, hapart, ?_, hfree⟩,
    ?_⟩
  · rw [← hagree.elsewhere _ hapart]
    exact hfree'
  · rw [FileTree.erase_insert hroom]
    rfl

namespace Sites

variable (h : Sites output tree target temporary)
include h

/-- What is in the place of the output is found at its path. -/
theorem locate_output (hpresent : (tree.node? target.location).isSome = true) :
    tree.locate output = .ok target.location := by
  obtain ⟨initial, hends⟩ := h.endsWith
  exact (FileTree.locate_eq_ok_iff_place hends).mpr
    ⟨target, h.placeOutput, h.nameOutput, hpresent, rfl⟩

theorem locate_temporary (hpresent : (tree.node? temporary.location).isSome = true) :
    tree.locate (temporaryPath output) = .ok temporary.location := by
  obtain ⟨initial, last, -, hends⟩ := endsWith_temporaryPath output
  exact (FileTree.locate_eq_ok_iff_place hends).mpr
    ⟨temporary, h.placeTemporary, h.nameTemporary, hpresent, rfl⟩

theorem agreesOff_erase :
    FileTree.AgreesOff temporary.location tree (tree.erase temporary.location) :=
  FileTree.agreesOff_erase h.freeTemporary

theorem hasRoom_temporary : tree.hasRoom temporary.location = true := by
  obtain ⟨initial, last, -, hends⟩ := endsWith_temporaryPath output
  exact FileTree.hasRoom_of_place hends h.placeTemporary h.freeTemporary

/-- There is room for the output, also when the temporary file is gone. -/
theorem hasRoom_output : (tree.erase temporary.location).hasRoom target.location = true := by
  obtain ⟨initial, hends⟩ := h.endsWith
  refine FileTree.hasRoom_of_place hends (h.agreesOff_erase.place_eq_ok hends h.placeOutput) ?_
  rw [h.agreesOff_erase.elsewhere _ h.apart]
  exact h.freeOutput

theorem agreesOff_deliver (contents : ByteArray) :
    FileTree.AgreesOff target.location (tree.erase temporary.location)
      (deliver tree target temporary contents) :=
  FileTree.agreesOff_insert h.hasRoom_output contents

theorem node?_deliver_output (contents : ByteArray) :
    (deliver tree target temporary contents).node? target.location = some (.file contents) :=
  FileTree.node?_insert_self h.hasRoom_output _

theorem node?_deliver_temporary (contents : ByteArray) :
    (deliver tree target temporary contents).node? temporary.location = none := by
  rw [(h.agreesOff_deliver contents).elsewhere _ h.apart.symm,
    FileTree.node?_erase_self h.freeTemporary]

/-- A path that ends with a name has its place in the tree that was delivered to. -/
theorem place_deliver (contents : ByteArray) {path : Path} {initial : List String} {name : String}
    (hends : path.EndsWith initial name) {place : Place} (hplace : tree.place path = .ok place) :
    (deliver tree target temporary contents).place path = .ok place := by
  have herased := h.agreesOff_erase.place_eq_ok hends hplace
  exact (h.agreesOff_deliver contents).place_eq_ok hends herased

/-- The places are the same in the tree that was delivered to. -/
theorem sites_deliver (contents : ByteArray) :
    Sites output (deliver tree target temporary contents) target temporary := by
  obtain ⟨initial, hends⟩ := h.endsWith
  obtain ⟨initial', last, -, hends'⟩ := endsWith_temporaryPath output
  exact {
    placeOutput := h.place_deliver contents hends h.placeOutput
    placeTemporary := h.place_deliver contents hends' h.placeTemporary
    endsWith := h.endsWith
    nameOutput := h.nameOutput
    nameTemporary := h.nameTemporary
    apart := h.apart
    freeOutput := by
      rw [h.node?_deliver_output]
      simp
    freeTemporary := by
      rw [h.node?_deliver_temporary]
      simp }

/-- An output can be written and moved to its place. -/
theorem exists_write_replace (contents : ByteArray) :
    ∃ middle, tree.write (temporaryPath output) contents = .ok middle ∧
      middle.replace (temporaryPath output) output =
        .ok (deliver tree target temporary contents) := by
  obtain ⟨initial, hends⟩ := h.endsWith
  obtain ⟨initial', last, -, hends'⟩ := endsWith_temporaryPath output
  have hwrite : tree.write (temporaryPath output) contents =
      .ok (tree.insert temporary.location (.file contents)) :=
    (FileTree.write_eq_ok_iff hends').mpr
      ⟨temporary, h.placeTemporary, h.nameTemporary, h.freeTemporary, rfl⟩
  have hagree := FileTree.agreesOff_insert h.hasRoom_temporary contents
  have hwritten := FileTree.node?_insert_self h.hasRoom_temporary (.file contents)
  have hfree : (tree.insert temporary.location (.file contents)).node? target.location ≠
      some .directory := by
    rw [hagree.elsewhere _ h.apart]
    exact h.freeOutput
  obtain ⟨hnamed, hslash⟩ := FileTree.isNamed_of_place hends h.placeOutput
  refine ⟨_, hwrite, (FileTree.replace_eq_ok_iff hends').mpr
    ⟨temporary, target, contents, hagree.place_eq_ok hends' h.placeTemporary,
      hagree.place_eq_ok hends h.placeOutput, hnamed, hslash, h.nameTemporary, h.nameOutput,
      hwritten, hfree, ?_⟩⟩
  rw [FileTree.erase_insert h.hasRoom_temporary]
  rfl

/-- What was delivered is there already. -/
theorem deliver_deliver (contents : ByteArray) :
    deliver (deliver tree target temporary contents) target temporary contents =
      deliver tree target temporary contents := by
  rw [deliver, FileTree.erase_of_none (h.node?_deliver_temporary contents)]
  exact FileTree.insert_of_node?_eq_some (h.node?_deliver_output contents)

end Sites

/-! ## Trees after a success -/

/-- An output has new contents, its temporary file is gone, and the rest of the tree is as it was
    before. -/
structure Delivers (output : Path) (contents : ByteArray) (before after : FileTree) : Prop where
  workingDirectory : after.workingDirectory = before.workingDirectory
  atOutput : after.at? output = some (.file contents)
  atTemporary : after.at? (temporaryPath output) = none
  /-- Every other place holds what it held. -/
  elsewhere : ∀ location, after.locate output ≠ .ok location →
    (∀ place, before.place (temporaryPath output) = .ok place → location ≠ place.location) →
      after.node? location = before.node? location
  /-- Every path that does not lead to the output, and did not lead to the temporary file, leads to
      what it led to. -/
  paths : ∀ path, after.locate path ≠ after.locate output →
    (∀ location, before.locate (temporaryPath output) = .ok location →
      before.locate path ≠ .ok location) → after.at? path = before.at? path

/-- A file that was delivered is in the place of the output. -/
theorem Sites.locate_deliver (h : Sites output tree target temporary) (contents : ByteArray) :
    (deliver tree target temporary contents).locate output = .ok target.location := by
  apply (h.sites_deliver contents).locate_output
  rw [h.node?_deliver_output]
  rfl

theorem Sites.delivers (h : Sites output tree target temporary) (contents : ByteArray) :
    Delivers output contents tree (deliver tree target temporary contents) := by
  obtain ⟨initial, last, -, hends⟩ := endsWith_temporaryPath output
  have hlocate := h.locate_deliver contents
  -- The tree without the temporary file stands between the two trees.
  have herase := h.agreesOff_erase
  have hinsert := h.agreesOff_deliver contents
  exact {
    workingDirectory := by simp [deliver]
    atOutput := FileTree.at?_eq_some_iff.mpr ⟨_, hlocate, h.node?_deliver_output contents⟩
    atTemporary := FileTree.at?_eq_none_of_place hends (h.sites_deliver contents).placeTemporary
      (h.node?_deliver_temporary contents)
    elsewhere := by
      intro location houtput htemporary
      have hne : location ≠ target.location := by
        rintro rfl
        exact houtput hlocate
      rw [hinsert.elsewhere _ hne, herase.elsewhere _ (htemporary _ h.placeTemporary)]
    paths := by
      intro path houtput htemporary
      rw [hlocate] at houtput
      have hleft (hleads : (tree.erase temporary.location).locate path = .ok target.location) :
          (tree.erase temporary.location).node? target.location = none := by
        -- Such a path would lead to the new output as well.
        refine absurd (hinsert.locate_eq_ok (fun _ => ?_) hleads) houtput
        rw [h.node?_deliver_output]
        rfl
      have hbefore (hleads : tree.locate path = .ok temporary.location) :
          tree.node? temporary.location = none := by
        cases hnode : tree.node? temporary.location with
        | none => rfl
        | some node =>
          have hpresent : (tree.node? temporary.location).isSome = true := by rw [hnode]; rfl
          exact absurd hleads (htemporary _ (h.locate_temporary hpresent))
      have hafter (_ : (tree.erase temporary.location).locate path = .ok temporary.location) :
          (tree.erase temporary.location).node? temporary.location = none :=
        FileTree.node?_erase_self h.freeTemporary
      rw [hinsert.at?_eq hleft fun hleads => absurd hleads houtput,
        herase.at?_eq hbefore hafter] }

/-! ## Running again -/

/-- A file that is neither the output nor the temporary file keeps its contents. -/
theorem Sites.at?_deliver (h : Sites output tree target temporary) (contents : ByteArray)
    {path : Path} {bytes : ByteArray} (hat : tree.at? path = some (.file bytes))
    (houtput : tree.locate path ≠ tree.locate output)
    (htemporary : tree.locate path ≠ tree.locate (temporaryPath output)) :
    (deliver tree target temporary contents).at? path = some (.file bytes) := by
  obtain ⟨location, hlocate, hnode⟩ := FileTree.at?_eq_some_iff.mp hat
  have hpresent : (tree.node? location).isSome = true := by rw [hnode]; rfl
  -- If the file were in one of the two places, then the path of that place would lead to it.
  have hne : location ≠ target.location := by
    rintro rfl
    exact houtput (hlocate.trans (h.locate_output hpresent).symm)
  have hne' : location ≠ temporary.location := by
    rintro rfl
    exact htemporary (hlocate.trans (h.locate_temporary hpresent).symm)
  have herase := h.agreesOff_erase
  have hinsert := h.agreesOff_deliver contents
  have hbetween := herase.locate_eq_ok (fun heq => absurd heq hne') hlocate
  refine FileTree.at?_eq_some_iff.mpr
    ⟨location, hinsert.locate_eq_ok (fun heq => absurd heq hne) hbetween, ?_⟩
  rw [hinsert.elsewhere _ hne, herase.elsewhere _ hne', hnode]

/-- Assembling a file succeeds if the source can be read and has a program, and the output can be
    written and moved to its place. -/
theorem run_assembleFile_of_written {input : Path} {given : Option Path} {source : String}
    {bytes : ByteArray} {program : Program} (hread : tree.read input = .ok bytes)
    (htext : String.fromUTF8? bytes = some source)
    (hassemble : (assemble source).result = .ok program)
    (hwrite : tree.write (temporaryPath (given.getD (outputPath input))) program.toText.toUTF8 =
      .ok middle)
    (hmove : middle.replace (temporaryPath (given.getD (outputPath input)))
      (given.getD (outputPath input)) = .ok after) :
    ∃ report, (assembleFile (m := StateM FileTree) input given).run tree = (report, after) ∧
      report.result = .ok ⟨program, given.getD (outputPath input)⟩ := by
  have hreadText : (FileSystem.readText (m := StateM FileTree) input).run tree =
      (.ok source, tree) := by
    have hrun : (FileSystem.read (m := StateM FileTree) input).run tree = (.ok bytes, tree) :=
      Prod.ext hread rfl
    rw [FileSystem.readText, run_bind_of_run hrun]
    simp only [htext]
    rfl
  have hoperations :
      (writeOutput (m := StateM FileTree) (given.getD (outputPath input))
        program.toText.toUTF8).run tree = (.ok (), after) := by
    have hwritten : (FileSystem.write (m := StateM FileTree)
        (temporaryPath (given.getD (outputPath input))) program.toText.toUTF8).run tree =
          (.ok (), middle) := FileTree.run_change_of_ok hwrite
    have hmoved : (FileSystem.replace (m := StateM FileTree)
        (temporaryPath (given.getD (outputPath input))) (given.getD (outputPath input))).run
          middle = (.ok (), after) := FileTree.run_change_of_ok hmove
    rw [writeOutput, run_bind_of_run hwritten, run_bind_of_run hmoved]
    rfl
  have hpresent : (FileSystem.isPresent (m := StateM FileTree)
      (given.getD (outputPath input))).run tree = (_, tree) := rfl
  rw [assembleFile, run_bind_of_run hreadText]
  simp only [hassemble]
  rw [run_bind_of_run hpresent, run_bind_of_run hoperations]
  exact ⟨_, rfl, rfl⟩

/-! ## Main result -/

/-- A success writes exactly the program. The source is read before anything is written, and
    afterwards the output has the words, there is no temporary file, and nothing else changed. If
    the source is neither the output nor the temporary file, then assembling it again gives the
    same program at the same path and leaves the tree as it is. -/
theorem assembleFile_delivers :
    (∀ (fs : FileSystem (StateM FileTree)), fs.IsTruthful →
      ∀ input given before after report written,
        (@assembleFile (StateM FileTree) _ fs input given).run before = (report, after) →
        report.result = .ok written →
          written.path = given.getD (outputPath input) ∧
          (∃ bytes source, before.at? input = some (.file bytes) ∧
            String.fromUTF8? bytes = some source ∧
            (assemble source).result = .ok written.program) ∧
          Delivers written.path written.program.toText.toUTF8 before after) ∧
    ∀ input given before after report written,
      (assembleFile (m := StateM FileTree) input given).run before = (report, after) →
      report.result = .ok written →
      before.locate input ≠ before.locate written.path →
      before.locate input ≠ before.locate (temporaryPath written.path) →
        ∃ again, (assembleFile (m := StateM FileTree) input given).run after = (again, after) ∧
          again.result = .ok written := by
  refine ⟨?_, ?_⟩
  · intro fs hfs input given before after report written hrun hresult
    have hends := ends_of_run_assembleFile hfs.toIsFaithful hrun
    rw [hresult] at hends
    cases hends with
    | written reads assembles writes moves =>
      obtain ⟨bytes, hread, htext⟩ := reads
      have hat := FileTree.read_eq_ok_iff.mp (hfs.contents input before bytes hread)
      obtain ⟨target, temporary, hsites, hafter⟩ := exists_sites writes moves
      rw [hafter]
      exact ⟨rfl, ⟨bytes, _, hat, htext, assembles⟩, hsites.delivers _⟩
  · intro input given before after report written hrun hresult houtput htemporary
    have hends := ends_of_run_assembleFile FileTree.isFaithful hrun
    rw [hresult] at hends
    cases hends with
    | @written _ program _ _ reads assembles writes moves =>
      obtain ⟨bytes, hread, htext⟩ := reads
      have hat := FileTree.read_eq_ok_iff.mp (FileTree.isTruthful.contents _ _ _ hread)
      obtain ⟨target, temporary, hsites, hafter⟩ := exists_sites writes moves
      let contents := program.toText.toUTF8
      -- The source is still there, and the places of the output are the same.
      have hat' := hsites.at?_deliver contents hat houtput htemporary
      rw [← hafter, ← FileTree.read_eq_ok_iff] at hat'
      obtain ⟨middle, hwrite, hmove⟩ :=
        (hsites.sites_deliver contents).exists_write_replace contents
      rw [hsites.deliver_deliver, ← hafter] at hmove
      rw [← hafter] at hwrite
      exact run_assembleFile_of_written hat' htext assembles hwrite hmove

/-- An older output and a temporary file that was left behind are both replaced, once and for
    all. -/
theorem assembleFile_delivers_again :
    let before := FileTree.ofEntries []
      [(⟨"Add.asm"⟩, .file "@2\n".toUTF8), (⟨"Add.hack"⟩, .file "old".toUTF8),
        (⟨"Add.hack.tmp"⟩, .file "left".toUTF8)]
    let run := (assembleFile (m := StateM FileTree) ⟨"Add.asm"⟩ none).run before
    ∃ written, run.1.result = .ok written ∧
      Delivers ⟨"Add.hack"⟩ written.program.toText.toUTF8 before run.2 ∧
      ∃ again, (assembleFile (m := StateM FileTree) ⟨"Add.asm"⟩ none).run run.2 = (again, run.2) ∧
        again.result = .ok written := by
  intro before run
  have hfine : run.1.result.isOk = true := by decide +kernel
  obtain ⟨written, hresult⟩ := exists_eq_ok_of_isOk hfine
  have hlocate : before.locate ⟨"Add.asm"⟩ ≠ before.locate ⟨"Add.hack"⟩ ∧
      before.locate ⟨"Add.asm"⟩ ≠ before.locate (temporaryPath ⟨"Add.hack"⟩) := by
    decide +kernel
  obtain ⟨hpath, -, hdelivers⟩ :=
    assembleFile_delivers.1 inferInstance FileTree.isTruthful ⟨"Add.asm"⟩ none before run.2 run.1
      written rfl hresult
  have houtput : written.path = ⟨"Add.hack"⟩ := by
    rw [hpath]
    decide +kernel
  rw [houtput] at hdelivers
  have hagain := assembleFile_delivers.2 ⟨"Add.asm"⟩ none before run.2 run.1 written rfl hresult
  rw [houtput] at hagain
  exact ⟨written, hresult, hdelivers, hagain hlocate.1 hlocate.2⟩

end Program

end HackAssembler
