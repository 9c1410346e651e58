/-
  HackAssembler.Program.File

  Assembling files. The output first goes to a temporary file beside it, which then takes its
  place, so an output file is either complete or as it was. A temporary file that cannot take its
  place is removed.
-/
import HackAssembler.FileSystem
import HackAssembler.Program.Assemble

namespace HackAssembler.Program

/-- A program with the path of the file it was written to. -/
structure Written where
  program : Program
  path : Path

/-- Where the output goes if no path is given: beside the source, with the extension `hack`. -/
def outputPath (input : Path) : Path :=
  input.withExtension "hack"

/-- The path of the temporary file for an output. -/
def temporaryPath (output : Path) : Path :=
  output.extend ".tmp"

variable {m : Type → Type} [Monad m] [FileSystem m]

/-- Puts a file with the given contents at a path, or leaves there what was there before. -/
def writeOutput (path : Path) (contents : ByteArray) : m (Except FileFault Unit) := do
  let temporary := temporaryPath path
  let outcome ← match ← FileSystem.write temporary contents with
    | .ok () => FileSystem.replace temporary path
    | .error fault => pure (.error fault)
  if let .error _ := outcome then
    -- The file may never have been made; then there is nothing to remove.
    let _ ← FileSystem.remove temporary
  return outcome

/-- Assembles the source file at a path and writes the output. -/
def assembleFile (input : Path) (output : Option Path) : m (Report Written) := do
  match ← FileSystem.readText input with
  | .error fault => return Report.fail (.sourceRead input fault)
  | .ok source =>
    let report := assemble source
    match report.result with
    | .error error => return ⟨report.log, .error error⟩
    | .ok program =>
      let path := output.getD (outputPath input)
      let notice := if ← FileSystem.isPresent path then Event.overwriting path else .creating path
      let log := report.log ++ [notice]
      match ← writeOutput path program.toText.toUTF8 with
      | .error fault => return ⟨log, .error (.outputWrite path fault)⟩
      | .ok () => return ⟨log, .ok ⟨program, path⟩⟩

end HackAssembler.Program
