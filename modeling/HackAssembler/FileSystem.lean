/-
  HackAssembler.FileSystem

  What the assembler asks of a file system: to read a file, to tell whether something is there, to
  write a file, to put one file in the place of another, and to remove a file. The class leaves
  open which file system answers; `HackAssembler.FileTree` has one that is a value.
-/
import HackAssembler.Path

namespace HackAssembler

/-! ## Faults -/

/-- Why a file system refuses an operation. -/
inductive FileFault where
  | notFound
  | busy
  | notDirectory
  | isDirectory
  | nameTooLong
  /-- The path holds a NUL character. -/
  | nulInPath
  /-- The contents of a file are not text in UTF-8. -/
  | notText
  /-- Any other fault, with its wording. -/
  | other (description : String)
deriving DecidableEq, Repr

/-- The wording of a fault. -/
def FileFault.message : FileFault → String
  | notFound => "No such file or directory (os error 2)"
  | busy => "Device or resource busy (os error 16)"
  | notDirectory => "Not a directory (os error 20)"
  | isDirectory => "Is a directory (os error 21)"
  | nameTooLong => "File name too long (os error 36)"
  | nulInPath => "file name contained an unexpected NUL byte"
  | notText => "stream did not contain valid UTF-8"
  | other description => description

/-! ## Operations -/

/-- The operations of a file system, as actions of a monad. -/
class FileSystem (m : Type → Type) where
  /-- The contents of a file. -/
  read : Path → m (Except FileFault ByteArray)
  /-- Tells whether a path leads to a file or a directory. -/
  isPresent : Path → m Bool
  /-- Gives a file new contents; makes the file if it is not there. -/
  write : Path → ByteArray → m (Except FileFault Unit)
  /-- Moves the file at the first path to the second, over a file that is there. -/
  replace : Path → Path → m (Except FileFault Unit)
  /-- Removes a file. -/
  remove : Path → m (Except FileFault Unit)

/-- The contents of a file as text. -/
def FileSystem.readText {m : Type → Type} [Monad m] [FileSystem m] (path : Path) :
    m (Except FileFault String) := do
  match ← FileSystem.read path with
  | .error fault => return .error fault
  | .ok contents =>
    match String.fromUTF8? contents with
    | none => return .error .notText
    | some text => return .ok text

end HackAssembler
