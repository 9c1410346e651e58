/-
  HackAssembler.Path

  Paths of files: a text whose components are separated by `/`. Empty components and `.` stand for
  nothing, `..` for the parent directory; any other component is a name.

  `Path.withExtension` gives the path of a sibling file. It keeps the text before the file name as
  it was written and drops what follows the name.
-/

namespace HackAssembler

/-- The path of a file or a directory. -/
structure Path where
  text : String
deriving DecidableEq, Repr

namespace Path

instance : ToString Path := ⟨Path.text⟩

/-- The path whose text goes on with `tail`. -/
def extend (path : Path) (tail : String) : Path :=
  ⟨path.text ++ tail⟩

/-! ## Components -/

/-- What stands between the `/`, empty components included. -/
def components (path : Path) : List String :=
  (path.text.toList.splitOnP (· == '/')).map String.ofList

/-- Tells whether a component stands for nothing. -/
def isIdle (component : String) : Bool :=
  component == "" || component == "."

/-- The components in reverse order, less those at the end that stand for nothing. -/
def trimmed (path : Path) : List String :=
  path.components.reverse.dropWhile isIdle

/-- Tells whether a path goes on after its last component that stands for something. -/
def hasTail (path : Path) : Bool :=
  path.components.getLast?.any isIdle

/-- The last component, if it is a name. -/
def fileName? (path : Path) : Option String :=
  path.trimmed.head?.filter (· != "..")

/-! ## Extensions -/

/-- A file name cut at its last dot. A dot at the beginning does not count. -/
def splitExtension (name : String) : String × Option String :=
  match name.toList.reverse.span (· != '.') with
  | (_, []) => (name, none)
  | (_, [_]) => (name, none)
  | (extension, _ :: stem) =>
    (String.ofList stem.reverse, some (String.ofList extension.reverse))

/-- The extension of the file name, if it has one. -/
def extension? (path : Path) : Option String :=
  path.fileName?.bind fun name => (splitExtension name).2

/-- The path with another extension, or with an extension if it had none. A path without a file
    name has no extension and stays as it is. When a name at the end of the path has a single dot
    before its extension, only `..` is left of it; that is no file name and takes no extension. -/
def withExtension (path : Path) (extension : String) : Path :=
  match path.fileName? with
  | none => path
  | some name =>
    let stem := (splitExtension name).1
    let sibling := if stem = "." ∧ !path.hasTail then ".." else stem ++ "." ++ extension
    ⟨"/".intercalate ((sibling :: path.trimmed.tail).reverse)⟩

end Path

end HackAssembler
