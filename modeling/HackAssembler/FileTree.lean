/-
  HackAssembler.FileTree

  A file system as a value: directories and files, without links and without permissions. Paths
  are followed one component at a time from the root or from the working directory; every
  component but the last has to lead to a directory, and a path that goes on after a file leads
  nowhere.

  Every file and every directory is in a directory, and the operations keep it so. The tree is
  extensional: two trees with the same files and directories are equal.
-/
import Std.Data.ExtTreeMap
import HackAssembler.FileSystem

namespace HackAssembler

/-! ## Trees -/

/-- The names that lead from the root to a file or a directory. -/
abbrev Location := List String

/-- What a location holds. -/
inductive FileNode where
  | file (contents : ByteArray)
  | directory

/-- The files and directories of a file system, and the directory where relative paths begin. -/
structure FileTree where
  nodes : Std.ExtTreeMap Location FileNode
  workingDirectory : Location
  /-- The root is always there. -/
  root : nodes[([] : Location)]? = some FileNode.directory
  /-- Everything else is in a directory. -/
  closed : ∀ (location : Location) name, (nodes[location ++ [name]]?).isSome = true →
    nodes[location]? = some FileNode.directory

namespace FileTree

/-- The tree that holds nothing but the root. -/
def empty (workingDirectory : Location) : FileTree where
  nodes := (∅ : Std.ExtTreeMap Location FileNode).insert [] .directory
  workingDirectory := workingDirectory
  root := Std.ExtTreeMap.getElem?_insert_self
  closed := by
    intro location name hsome
    simp at hsome

/-- The file or directory at a location. -/
def node? (tree : FileTree) (location : Location) : Option FileNode :=
  tree.nodes[location]?

/-- Tells whether there is a directory at a location. -/
def isDirectory (tree : FileTree) (location : Location) : Bool :=
  match tree.node? location with
  | some .directory => true
  | _ => false

/-- Tells whether something can be put at a location: in a directory, but not over one. -/
def hasRoom (tree : FileTree) (location : Location) : Bool :=
  tree.isDirectory location.dropLast && !tree.isDirectory location

@[simp] theorem node?_root (tree : FileTree) : tree.node? [] = some .directory := tree.root

theorem isDirectory_iff {tree : FileTree} {location : Location} :
    tree.isDirectory location = true ↔ tree.node? location = some .directory := by
  rw [isDirectory]
  split
  · rename_i hnode
    exact iff_of_true rfl hnode
  · rename_i hnode
    exact iff_of_false (by simp) hnode

theorem hasRoom_iff {tree : FileTree} {location : Location} :
    tree.hasRoom location = true ↔
      tree.node? location.dropLast = some .directory ∧ tree.node? location ≠ some .directory := by
  rw [hasRoom, Bool.and_eq_true, Bool.not_eq_true', ← Bool.not_eq_true, isDirectory_iff,
    isDirectory_iff]

theorem root_insert {tree : FileTree} {location : Location} (h : tree.hasRoom location = true)
    (node : FileNode) :
    (tree.nodes.insert location node)[([] : Location)]? = some FileNode.directory := by
  have hroot : location ≠ [] := by
    rintro rfl
    exact (hasRoom_iff.mp h).2 tree.node?_root
  simp [Std.ExtTreeMap.getElem?_insert, hroot, tree.root]

/-- What is put into a directory, and over none, leaves everything in a directory. -/
theorem closed_insert {tree : FileTree} {location : Location} (h : tree.hasRoom location = true)
    (node : FileNode) (place : Location) (name : String)
    (hsome : ((tree.nodes.insert location node)[place ++ [name]]?).isSome = true) :
    (tree.nodes.insert location node)[place]? = some FileNode.directory := by
  obtain ⟨hparent, hfree⟩ := hasRoom_iff.mp h
  have hdirectory : tree.node? place = some .directory := by
    by_cases hplace : location = place ++ [name]
    · rwa [hplace, List.dropLast_concat] at hparent
    · apply tree.closed place name
      simpa [Std.ExtTreeMap.getElem?_insert, hplace] using hsome
  have hne : location ≠ place := by
    rintro rfl
    exact hfree hdirectory
  rw [node?] at hdirectory
  simp [Std.ExtTreeMap.getElem?_insert, hne, hdirectory]

/-- Puts a file or a directory at a location, if there is room for it. -/
def insert (tree : FileTree) (location : Location) (node : FileNode) : FileTree :=
  if h : tree.hasRoom location = true then
    { tree with
      nodes := tree.nodes.insert location node
      root := root_insert h node
      closed := closed_insert h node }
  else tree

theorem root_erase {tree : FileTree} {location : Location}
    (h : ¬ tree.isDirectory location = true) :
    (tree.nodes.erase location)[([] : Location)]? = some FileNode.directory := by
  have hroot : location ≠ [] := by
    rintro rfl
    exact h (isDirectory_iff.mpr tree.node?_root)
  simp [Std.ExtTreeMap.getElem?_erase, hroot, tree.root]

/-- Nothing is in what is no directory, so it can be taken away. -/
theorem closed_erase {tree : FileTree} {location : Location}
    (h : ¬ tree.isDirectory location = true) (place : Location) (name : String)
    (hsome : ((tree.nodes.erase location)[place ++ [name]]?).isSome = true) :
    (tree.nodes.erase location)[place]? = some FileNode.directory := by
  have hdirectory : tree.node? place = some .directory := by
    apply tree.closed place name
    rw [Std.ExtTreeMap.getElem?_erase] at hsome
    split at hsome
    · cases hsome
    · exact hsome
  have hne : location ≠ place := by
    rintro rfl
    exact h (isDirectory_iff.mpr hdirectory)
  rw [node?] at hdirectory
  simp [Std.ExtTreeMap.getElem?_erase, hne, hdirectory]

/-- Takes away the file at a location. A directory stays. -/
def erase (tree : FileTree) (location : Location) : FileTree :=
  if h : tree.isDirectory location = true then tree
  else
    { tree with
      nodes := tree.nodes.erase location
      root := root_erase h
      closed := closed_erase h }

/-- Everything below the working directory, with the names that lead to it from there. -/
def entries (tree : FileTree) : List (Location × FileNode) :=
  tree.nodes.toList.filterMap fun (location, node) =>
    let names := location.drop tree.workingDirectory.length
    if tree.workingDirectory.isPrefixOf location && !names.isEmpty then some (names, node) else none

@[ext] theorem ext {a b : FileTree} (hnodes : ∀ location, a.node? location = b.node? location)
    (hdirectory : a.workingDirectory = b.workingDirectory) : a = b := by
  obtain ⟨nodes, workingDirectory, _, _⟩ := a
  obtain ⟨others, _, _, _⟩ := b
  obtain rfl : nodes = others := Std.ExtTreeMap.ext_getElem? hnodes
  cases hdirectory
  rfl

theorem insert_of_not_hasRoom {tree : FileTree} {location : Location}
    (h : ¬ tree.hasRoom location = true) (node : FileNode) : tree.insert location node = tree := by
  rw [insert, dif_neg h]

theorem node?_insert {tree : FileTree} {location : Location} (h : tree.hasRoom location = true)
    (node : FileNode) (other : Location) :
    (tree.insert location node).node? other =
      if location = other then some node else tree.node? other := by
  rw [insert, dif_pos h]
  simp [node?, Std.ExtTreeMap.getElem?_insert]

theorem node?_erase {tree : FileTree} {location : Location}
    (h : tree.node? location ≠ some .directory) (other : Location) :
    (tree.erase location).node? other = if location = other then none else tree.node? other := by
  rw [erase, dif_neg (mt isDirectory_iff.mp h)]
  simp [node?, Std.ExtTreeMap.getElem?_erase]

theorem node?_insert_self {tree : FileTree} {location : Location}
    (h : tree.hasRoom location = true) (node : FileNode) :
    (tree.insert location node).node? location = some node := by
  rw [node?_insert h, if_pos rfl]

theorem node?_erase_self {tree : FileTree} {location : Location}
    (h : tree.node? location ≠ some .directory) : (tree.erase location).node? location = none := by
  rw [node?_erase h, if_pos rfl]

@[simp] theorem workingDirectory_insert (tree : FileTree) (location : Location) (node : FileNode) :
    (tree.insert location node).workingDirectory = tree.workingDirectory := by
  rw [insert]
  split <;> rfl

@[simp] theorem workingDirectory_erase (tree : FileTree) (location : Location) :
    (tree.erase location).workingDirectory = tree.workingDirectory := by
  rw [erase]
  split <;> rfl

/-! ## Building trees -/

/-- The locations that names lead through from a directory, the nearest first. -/
def trail (directory : Location) : List String → List Location
  | [] => []
  | name :: names => (directory ++ [name]) :: trail (directory ++ [name]) names

/-- Makes the directories that names lead through, where there is nothing yet. -/
def makeDirectories (tree : FileTree) (directory : Location) (names : List String) : FileTree :=
  (trail directory names).foldl
    (fun tree location =>
      if (tree.node? location).isNone then tree.insert location .directory else tree)
    tree

/-- The tree with the given files and directories at paths from its working directory, and the
    directories on the way to them. -/
def ofEntries (workingDirectory : Location) (entries : List (Path × FileNode)) : FileTree :=
  entries.foldl
    (fun tree (path, node) =>
      let names := path.components.filter fun component => !Path.isIdle component
      (tree.makeDirectories workingDirectory names.dropLast).insert
        (workingDirectory ++ names) node)
    (makeDirectories (empty workingDirectory) [] workingDirectory)

/-! ## Following paths -/

/-- The bytes that the name of a file or directory may have at most. -/
def maxNameSize : Nat := 255

/-- The bytes that a path may have at most. -/
def maxPathSize : Nat := 4095

/-- The location to which components lead from `start`. -/
def follow (tree : FileTree) (start : Location) : List String → Except FileFault Location
  | [] => .ok start
  | component :: rest =>
    match tree.node? start with
    | none => .error .notFound
    | some (.file _) => .error .notDirectory
    | some .directory =>
      if Path.isIdle component then follow tree start rest
      else if component = ".." then follow tree start.dropLast rest
      else if maxNameSize < component.utf8ByteSize then .error .nameTooLong
      else if (tree.node? (start ++ [component])).isNone then .error .notFound
      else follow tree (start ++ [component]) rest

/-- Refuses the paths that lead nowhere in any tree. -/
def checkPath (path : Path) : Except FileFault Unit :=
  if '\x00' ∈ path.text.toList then .error .nulInPath
  else if path.text = "" then .error .notFound
  else if maxPathSize < path.text.utf8ByteSize then .error .nameTooLong
  else .ok ()

/-- Where the components of a path begin. -/
def start (tree : FileTree) (path : Path) : Location :=
  if path.text.toList.head? = some '/' then [] else tree.workingDirectory

/-- The location of what a path leads to. -/
def locate (tree : FileTree) (path : Path) : Except FileFault Location := do
  checkPath path
  tree.follow (tree.start path) path.components

/-- A place in a directory, which may be free. -/
structure Place where
  /-- The directory. -/
  directory : Location
  /-- The last component of the path. -/
  name : String
  /-- Tells whether a `/` follows the last component. -/
  slash : Bool

namespace Place

/-- Tells whether the last component is a name. -/
def isNamed (place : Place) : Bool :=
  !Path.isIdle place.name && place.name != ".."

def location (place : Place) : Location :=
  place.directory ++ [place.name]

end Place

/-- The place that a path names in its directory. The directory has to be there. -/
def place (tree : FileTree) (path : Path) : Except FileFault Place := do
  checkPath path
  match path.components.reverse.dropWhile (· == "") with
  | [] => return ⟨[], "", true⟩
  | name :: before =>
    -- The empty component makes sure that what comes before is a directory.
    let directory ← tree.follow (tree.start path) (before.reverse ++ [""])
    return ⟨directory, name, path.text.toList.getLast? == some '/'⟩

/-- Refuses a name that is too long to be looked up. -/
def checkName (name : String) : Except FileFault Unit :=
  if maxNameSize < name.utf8ByteSize then .error .nameTooLong else .ok ()

/-! ## Operations -/

/-- The contents of the file at a path. -/
def read (tree : FileTree) (path : Path) : Except FileFault ByteArray := do
  match tree.node? (← tree.locate path) with
  | some (.file contents) => return contents
  | some .directory => throw .isDirectory
  | none => throw .notFound

/-- Tells whether a path leads to a file or a directory. -/
def isPresent (tree : FileTree) (path : Path) : Bool :=
  match tree.locate path with
  | .ok location => (tree.node? location).isSome
  | .error _ => false

/-- Gives the file at a path new contents; makes the file if its place is free. -/
def write (tree : FileTree) (path : Path) (contents : ByteArray) : Except FileFault FileTree := do
  let place ← tree.place path
  if !place.isNamed || place.slash then throw .isDirectory
  checkName place.name
  match tree.node? place.location with
  | some .directory => throw .isDirectory
  | _ => return tree.insert place.location (.file contents)

/-- Moves a file to another place, over a file that is there. Only files can be moved. -/
def replace (tree : FileTree) (source target : Path) : Except FileFault FileTree := do
  let source ← tree.place source
  let target ← tree.place target
  if !source.isNamed || !target.isNamed then throw .busy
  checkName source.name
  checkName target.name
  match tree.node? source.location with
  | none => throw .notFound
  | some .directory => throw .isDirectory
  | some (.file contents) =>
    if source.slash || target.slash then throw .notDirectory
    match tree.node? target.location with
    | some .directory => throw .isDirectory
    | _ =>
      -- Erasing comes first, so that a file moved to its own place stays.
      return (tree.erase source.location).insert target.location (.file contents)

/-- Removes the file at a path. -/
def remove (tree : FileTree) (path : Path) : Except FileFault FileTree := do
  let place ← tree.place path
  if !place.isNamed then throw .isDirectory
  checkName place.name
  match tree.node? place.location with
  | none => throw .notFound
  | some .directory => throw .isDirectory
  | some (.file _) =>
    if place.slash then throw .notDirectory
    return tree.erase place.location

/-- The outcome of a change as an action: a refused change leaves the tree as it is. -/
def change (step : FileTree → Except FileFault FileTree) :
    StateM FileTree (Except FileFault Unit) := do
  match step (← get) with
  | .ok tree =>
    set tree
    return .ok ()
  | .error fault => return .error fault

instance : FileSystem (StateM FileTree) where
  read path := do return (← get).read path
  isPresent path := do return (← get).isPresent path
  write path contents := change fun tree => tree.write path contents
  replace source target := change fun tree => tree.replace source target
  remove path := change fun tree => tree.remove path

end FileTree

end HackAssembler
