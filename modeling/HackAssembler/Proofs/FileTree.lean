/-
  HackAssembler.Proofs.FileTree

  Following paths in trees that differ in one place. Such trees look the same from everywhere else
  (`AgreesOff.follow_eq_ok`), as long as neither has a directory in that place: what leads through
  the place leads nowhere in both. The last sections say what writing and removing a file come to
  for a path that ends with a name.
-/
import HackAssembler.FileTree
import HackAssembler.Proofs.Path
import HackAssembler.Proofs.Report

namespace HackAssembler.FileTree

variable {tree : FileTree}

/-! ## Following -/

theorem follow_nil (start : Location) : tree.follow start [] = .ok start := rfl

/-- One step along a path begins in a directory, and stays there, goes up, or goes to something
    that is there. -/
theorem follow_cons_eq_ok_iff {start location : Location} {component : String}
    {rest : List String} :
    tree.follow start (component :: rest) = .ok location ↔
      tree.node? start = some .directory ∧
        ((Path.isIdle component = true ∧ tree.follow start rest = .ok location) ∨
          (Path.isIdle component = false ∧ component = ".." ∧
            tree.follow start.dropLast rest = .ok location) ∨
          (Path.isIdle component = false ∧ component ≠ ".." ∧
            component.utf8ByteSize ≤ maxNameSize ∧
            (tree.node? (start ++ [component])).isSome = true ∧
            tree.follow (start ++ [component]) rest = .ok location)) := by
  rw [follow]
  -- The checks of a step, in their order: a directory, an idle component, `..`, a name.
  cases hnode : tree.node? start with
  | none => simp
  | some node =>
    cases node with
    | file contents => simp
    | directory =>
      cases hidle : Path.isIdle component with
      | true => simp
      | false =>
        by_cases hparent : component = ".."
        · simp [hparent]
        · by_cases hsize : maxNameSize < component.utf8ByteSize
          · have hlarge : ¬ component.utf8ByteSize ≤ maxNameSize := by omega
            simp [hparent, hsize, hlarge]
          · have hsmall : component.utf8ByteSize ≤ maxNameSize := by omega
            cases hnext : tree.node? (start ++ [component]) with
            | none => simp [hparent, hsize]
            | some next => simp [hparent, hsize, hsmall]

theorem follow_append_eq_ok_iff {start location : Location} {first rest : List String} :
    tree.follow start (first ++ rest) = .ok location ↔
      ∃ between, tree.follow start first = .ok between ∧
        tree.follow between rest = .ok location := by
  induction first generalizing start with
  | nil => simp [follow]
  | cons component first ih =>
    -- The first step is the same in both ways, whichever of the three it is.
    rw [List.cons_append, follow_cons_eq_ok_iff]
    simp only [follow_cons_eq_ok_iff, ih]
    constructor
    · rintro ⟨hnode, ⟨hidle, between, hfirst, hrest⟩ |
        ⟨hidle, hparent, between, hfirst, hrest⟩ |
        ⟨hidle, hname, hsize, hnext, between, hfirst, hrest⟩⟩
      · exact ⟨between, ⟨hnode, .inl ⟨hidle, hfirst⟩⟩, hrest⟩
      · exact ⟨between, ⟨hnode, .inr (.inl ⟨hidle, hparent, hfirst⟩)⟩, hrest⟩
      · exact ⟨between, ⟨hnode, .inr (.inr ⟨hidle, hname, hsize, hnext, hfirst⟩)⟩, hrest⟩
    · rintro ⟨between, ⟨hnode, ⟨hidle, hfirst⟩ | ⟨hidle, hparent, hfirst⟩ |
        ⟨hidle, hname, hsize, hnext, hfirst⟩⟩, hrest⟩
      · exact ⟨hnode, .inl ⟨hidle, between, hfirst, hrest⟩⟩
      · exact ⟨hnode, .inr (.inl ⟨hidle, hparent, between, hfirst, hrest⟩)⟩
      · exact ⟨hnode, .inr (.inr ⟨hidle, hname, hsize, hnext, between, hfirst, hrest⟩)⟩

/-- One step leads to another name only if it is that name. -/
theorem follow_singleton_ne {start : Location} {component name : String} (h : component ≠ name) :
    tree.follow start [component] ≠ .ok (start ++ [name]) := by
  intro hfollow
  simp only [follow_cons_eq_ok_iff, follow_nil] at hfollow
  -- The first two ways lead to a location that is too short.
  rcases hfollow with ⟨-, ⟨-, heq⟩ | ⟨-, -, heq⟩ | ⟨-, -, -, -, heq⟩⟩
  · have hlength := congrArg List.length (Except.ok.inj heq)
    rw [List.length_append, List.length_singleton] at hlength
    omega
  · have hlength := congrArg List.length (Except.ok.inj heq)
    rw [List.length_append, List.length_singleton, List.length_dropLast] at hlength
    omega
  · have hname := List.append_cancel_left (Except.ok.inj heq)
    exact h (List.singleton_inj.mp hname)

/-! ## Trees that differ in one place -/

/-- Two trees agree everywhere but in one place, which is no directory in either. -/
structure AgreesOff (place : Location) (a b : FileTree) : Prop where
  workingDirectory : b.workingDirectory = a.workingDirectory
  elsewhere : ∀ location, location ≠ place → b.node? location = a.node? location
  left : a.node? place ≠ some .directory
  right : b.node? place ≠ some .directory

variable {place : Location} {a b : FileTree}

theorem AgreesOff.symm (h : AgreesOff place a b) : AgreesOff place b a where
  workingDirectory := h.workingDirectory.symm
  elsewhere location hne := (h.elsewhere location hne).symm
  left := h.right
  right := h.left

/-- What leads somewhere in one tree leads there in the other, if there is something in it. -/
theorem AgreesOff.follow_eq_ok (h : AgreesOff place a b) {start location : Location}
    {components : List String} (hend : location = place → (b.node? place).isSome = true)
    (hfollow : a.follow start components = .ok location) :
    b.follow start components = .ok location := by
  induction components generalizing start with
  | nil => exact hfollow
  | cons component rest ih =>
    rw [follow_cons_eq_ok_iff] at hfollow ⊢
    obtain ⟨hnode, hstep⟩ := hfollow
    have hstart : start ≠ place := by
      rintro rfl
      exact h.left hnode
    rw [h.elsewhere start hstart]
    refine ⟨hnode, ?_⟩
    -- The step is the same in both trees, so only its end has to be looked at.
    rcases hstep with ⟨hidle, hrest⟩ | ⟨hidle, hparent, hrest⟩ | ⟨hidle, hname, hsize, hnext, hrest⟩
    · exact .inl ⟨hidle, ih hrest⟩
    · exact .inr (.inl ⟨hidle, hparent, ih hrest⟩)
    · refine .inr (.inr ⟨hidle, hname, hsize, ?_, ih hrest⟩)
      by_cases hplace : start ++ [component] = place
      · -- The way ends in the place, since it cannot go on from there.
        rw [hplace] at hrest ⊢
        cases rest with
        | nil => exact hend (Except.ok.inj hrest).symm
        | cons next rest =>
          rw [follow_cons_eq_ok_iff] at hrest
          exact absurd hrest.1 h.left
      · rw [h.elsewhere _ hplace]
        exact hnext

theorem AgreesOff.start_eq (h : AgreesOff place a b) (path : Path) :
    b.start path = a.start path := by
  rw [start, start, h.workingDirectory]

theorem text_ne_empty_of_checkPath {path : Path} (h : checkPath path = .ok ()) :
    path.text ≠ "" := by
  intro hempty
  rw [checkPath, hempty] at h
  cases h

theorem locate_eq_ok_iff {path : Path} {location : Location} :
    tree.locate path = .ok location ↔
      checkPath path = .ok () ∧
        tree.follow (tree.start path) path.components = .ok location := by
  rw [locate, except_bind_eq_ok_iff]
  constructor
  · rintro ⟨⟨⟩, hcheck, hfollow⟩
    exact ⟨hcheck, hfollow⟩
  · rintro ⟨hcheck, hfollow⟩
    exact ⟨(), hcheck, hfollow⟩

theorem AgreesOff.locate_eq_ok (h : AgreesOff place a b) {path : Path} {location : Location}
    (hend : location = place → (b.node? place).isSome = true)
    (hlocate : a.locate path = .ok location) : b.locate path = .ok location := by
  rw [locate_eq_ok_iff] at hlocate ⊢
  rw [h.start_eq]
  exact ⟨hlocate.1, h.follow_eq_ok hend hlocate.2⟩

/-- What a path leads to. -/
def at? (tree : FileTree) (path : Path) : Option FileNode :=
  match tree.locate path with
  | .ok location => tree.node? location
  | .error _ => none

theorem at?_eq_some_iff {path : Path} {node : FileNode} :
    tree.at? path = some node ↔
      ∃ location, tree.locate path = .ok location ∧ tree.node? location = some node := by
  rw [at?]
  cases tree.locate path with
  | error fault => simp
  | ok location => simp

/-- A path leads to the same in both trees, if it finds nothing in the place in either. -/
theorem AgreesOff.at?_eq (h : AgreesOff place a b) {path : Path}
    (hleft : a.locate path = .ok place → a.node? place = none)
    (hright : b.locate path = .ok place → b.node? place = none) : b.at? path = a.at? path := by
  ext node
  rw [at?_eq_some_iff, at?_eq_some_iff]
  constructor
  · rintro ⟨location, hlocate, hnode⟩
    have hne : location ≠ place := by
      rintro rfl
      rw [hright hlocate] at hnode
      cases hnode
    have hlocate' := h.symm.locate_eq_ok (fun heq => absurd heq hne) hlocate
    exact ⟨location, hlocate', by rw [← h.elsewhere location hne, hnode]⟩
  · rintro ⟨location, hlocate, hnode⟩
    have hne : location ≠ place := by
      rintro rfl
      rw [hleft hlocate] at hnode
      cases hnode
    have hlocate' := h.locate_eq_ok (fun heq => absurd heq hne) hlocate
    exact ⟨location, hlocate', by rw [h.elsewhere location hne, hnode]⟩

/-! ## Paths that end with a name -/

variable {path : Path} {initial : List String} {name : String}

/-- A way that ends with `/` leads to a directory. -/
theorem follow_append_idle_eq_ok_iff {start directory : Location} {components : List String} :
    tree.follow start (components ++ [""]) = .ok directory ↔
      tree.follow start components = .ok directory ∧ tree.node? directory = some .directory := by
  rw [follow_append_eq_ok_iff]
  simp only [follow_cons_eq_ok_iff, follow_nil, show Path.isIdle "" = true from rfl]
  constructor
  · rintro ⟨between, hfollow, hnode, ⟨-, hsame⟩ | ⟨hidle, -⟩ | ⟨hidle, -⟩⟩
    · cases hsame
      exact ⟨hfollow, hnode⟩
    · cases hidle
    · cases hidle
  · rintro ⟨hfollow, hnode⟩
    exact ⟨directory, hfollow, hnode, .inl ⟨trivial, rfl⟩⟩

/-- The place of such a path is the name in its directory, whether there is something or not. -/
theorem place_eq_ok_iff (h : path.EndsWith initial name) {place : Place} :
    tree.place path = .ok place ↔
      checkPath path = .ok () ∧ ∃ directory, tree.follow (tree.start path) initial = .ok directory ∧
        tree.node? directory = some .directory ∧ place = ⟨directory, name, false⟩ := by
  have hname : (name == "") = false := by
    have hidle := h.isIdle
    rw [Path.isIdle, Bool.or_eq_false_iff] at hidle
    exact hidle.1
  have hlast : path.components.reverse.dropWhile (· == "") = name :: initial.reverse := by
    rw [h.components, List.reverse_append, List.reverse_singleton, List.singleton_append,
      List.dropWhile_cons, if_neg (by simp [hname])]
  -- Nothing is cut off the end: the name is the last component, and the others are the directory.
  have hslash : (path.text.toList.getLast? == some '/') = false := beq_eq_false_iff_ne.mpr h.slash
  rw [FileTree.place, except_bind_eq_ok_iff, hlast, hslash]
  simp only [List.reverse_reverse, except_bind_eq_ok_iff, follow_append_idle_eq_ok_iff]
  constructor
  · rintro ⟨⟨⟩, hcheck, directory, ⟨hfollow, hnode⟩, hplace⟩
    cases hplace
    exact ⟨hcheck, directory, hfollow, hnode, rfl⟩
  · rintro ⟨hcheck, directory, hfollow, hnode, rfl⟩
    exact ⟨(), hcheck, directory, ⟨hfollow, hnode⟩, rfl⟩

theorem checkName_eq_ok_iff {name : String} :
    checkName name = .ok () ↔ name.utf8ByteSize ≤ maxNameSize := by
  rw [checkName]
  split
  · rename_i hlarge
    constructor
    · intro h
      cases h
    · intro hsmall
      omega
  · rename_i hsmall
    exact ⟨fun _ => by omega, fun _ => rfl⟩

/-- Such a path leads to its place, if there is something. -/
theorem locate_eq_ok_iff_place (h : path.EndsWith initial name) {location : Location} :
    tree.locate path = .ok location ↔
      ∃ place, tree.place path = .ok place ∧ checkName place.name = .ok () ∧
        (tree.node? place.location).isSome = true ∧ location = place.location := by
  rw [locate_eq_ok_iff, h.components, follow_append_eq_ok_iff]
  simp only [follow_cons_eq_ok_iff, follow_nil, h.isIdle, place_eq_ok_iff h]
  constructor
  · rintro ⟨hcheck, directory, hfollow, hnode, ⟨hidle, -⟩ | ⟨-, hparent, -⟩ |
      ⟨-, -, hsize, hnext, hlocation⟩⟩
    · cases hidle
    · exact absurd hparent h.ne_parent
    · cases hlocation
      exact ⟨⟨directory, name, false⟩, ⟨hcheck, directory, hfollow, hnode, rfl⟩,
        checkName_eq_ok_iff.mpr hsize, hnext, rfl⟩
  · rintro ⟨place, ⟨hcheck, directory, hfollow, hnode, rfl⟩, hname, hnext, rfl⟩
    exact ⟨hcheck, directory, hfollow, hnode,
      .inr (.inr ⟨trivial, h.ne_parent, checkName_eq_ok_iff.mp hname, hnext, rfl⟩)⟩

theorem isNamed_of_place (h : path.EndsWith initial name) {place : Place}
    (hplace : tree.place path = .ok place) : place.isNamed = true ∧ place.slash = false := by
  obtain ⟨-, directory, -, -, rfl⟩ := (place_eq_ok_iff h).mp hplace
  have hne : (name != "..") = true := bne_iff_ne.mpr h.ne_parent
  exact ⟨by simp [Place.isNamed, h.isIdle, hne], rfl⟩

/-- A file is written where there is no directory. -/
theorem write_eq_ok_iff (h : path.EndsWith initial name) {contents : ByteArray}
    {next : FileTree} :
    tree.write path contents = .ok next ↔
      ∃ place, tree.place path = .ok place ∧ checkName place.name = .ok () ∧
        tree.node? place.location ≠ some .directory ∧
        next = tree.insert place.location (.file contents) := by
  rw [write, except_bind_eq_ok_iff]
  refine exists_congr fun place => and_congr_right fun hplace => ?_
  obtain ⟨hnamed, hslash⟩ := isNamed_of_place h hplace
  rw [hnamed, hslash]
  -- The form of the path is in order, so what is left are the size of the name and the node.
  simp only [Bool.not_true, Bool.or_false, Bool.false_eq_true, if_false, except_bind_eq_ok_iff]
  constructor
  · rintro ⟨⟨⟩, hname, hwrite⟩
    split at hwrite
    · cases hwrite
    · rename_i hnode
      cases hwrite
      exact ⟨hname, hnode, rfl⟩
  · rintro ⟨hname, hnode, rfl⟩
    refine ⟨(), hname, ?_⟩
    split
    · contradiction
    · rfl

/-- A file is removed where there is one. -/
theorem remove_eq_ok_iff (h : path.EndsWith initial name) {next : FileTree} :
    tree.remove path = .ok next ↔
      ∃ place, tree.place path = .ok place ∧ checkName place.name = .ok () ∧
        (∃ contents, tree.node? place.location = some (.file contents)) ∧
        next = tree.erase place.location := by
  rw [remove, except_bind_eq_ok_iff]
  refine exists_congr fun place => and_congr_right fun hplace => ?_
  obtain ⟨hnamed, hslash⟩ := isNamed_of_place h hplace
  rw [hnamed, hslash]
  simp only [Bool.not_true, Bool.false_eq_true, if_false, except_bind_eq_ok_iff]
  constructor
  · rintro ⟨⟨⟩, hname, hremove⟩
    cases hnode : tree.node? place.location with
    | none =>
      rw [hnode] at hremove
      cases hremove
    | some node =>
      rw [hnode] at hremove
      cases node with
      | directory => cases hremove
      | file contents =>
        cases hremove
        exact ⟨hname, ⟨contents, rfl⟩, rfl⟩
  · rintro ⟨hname, ⟨contents, hnode⟩, rfl⟩
    exact ⟨(), hname, by rw [hnode]; rfl⟩

/-! ## Removing a file that may not be there -/

/-- The tree without the file at a path, if there is one. -/
def without (tree : FileTree) (path : Path) : FileTree :=
  match tree.remove path with
  | .ok next => next
  | .error _ => tree

/-- The file that a path leads to is removed. -/
theorem without_of_place (h : path.EndsWith initial name) {place : Place}
    {contents : ByteArray} (hplace : tree.place path = .ok place)
    (hname : checkName place.name = .ok ())
    (hnode : tree.node? place.location = some (.file contents)) :
    tree.without path = tree.erase place.location := by
  have hremove := (remove_eq_ok_iff h).mpr ⟨place, hplace, hname, ⟨contents, hnode⟩, rfl⟩
  rw [without, hremove]

/-- Either there is a file, and its place is free afterwards, or nothing changes. -/
theorem without_cases (h : path.EndsWith initial name) (tree : FileTree) :
    (∃ place contents, tree.place path = .ok place ∧ checkName place.name = .ok () ∧
        tree.node? place.location = some (.file contents) ∧
        tree.without path = tree.erase place.location) ∨
      (tree.without path = tree ∧ ∀ contents, tree.at? path ≠ some (.file contents)) := by
  rw [without]
  cases hremove : tree.remove path with
  | ok next =>
    obtain ⟨place, hplace, hname, ⟨contents, hnode⟩, rfl⟩ := (remove_eq_ok_iff h).mp hremove
    exact .inl ⟨place, contents, hplace, hname, hnode, rfl⟩
  | error fault =>
    refine .inr ⟨rfl, fun contents hfile => ?_⟩
    obtain ⟨location, hlocate, hnode⟩ := at?_eq_some_iff.mp hfile
    obtain ⟨place, hplace, hname, -, rfl⟩ := (locate_eq_ok_iff_place h).mp hlocate
    have hok := (remove_eq_ok_iff h).mpr ⟨place, hplace, hname, ⟨contents, hnode⟩, rfl⟩
    rw [hremove] at hok
    cases hok

theorem agreesOff_erase (h : tree.node? place ≠ some .directory) :
    AgreesOff place tree (tree.erase place) where
  workingDirectory := workingDirectory_erase tree place
  elsewhere location hne := by rw [node?_erase h, if_neg (Ne.symm hne)]
  left := h
  right := by simp [node?_erase_self h]

theorem agreesOff_insert (h : tree.hasRoom place = true) (contents : ByteArray) :
    AgreesOff place tree (tree.insert place (.file contents)) where
  workingDirectory := workingDirectory_insert tree place _
  elsewhere location hne := by rw [node?_insert h, if_neg (Ne.symm hne)]
  left := (hasRoom_iff.mp h).2
  right := by simp [node?_insert_self h]

/-- There is room for a file in the place of a path, unless it holds a directory. -/
theorem hasRoom_of_place (h : path.EndsWith initial name) {place : Place}
    (hplace : tree.place path = .ok place) (hfree : tree.node? place.location ≠ some .directory) :
    tree.hasRoom place.location = true := by
  obtain ⟨-, directory, -, hdirectory, rfl⟩ := (place_eq_ok_iff h).mp hplace
  refine hasRoom_iff.mpr ⟨?_, hfree⟩
  rwa [Place.location, List.dropLast_concat]

/-- The place of a path is the same in both trees, since a directory is on the way to it. -/
theorem AgreesOff.place_eq_ok {location : Location} (hagree : AgreesOff location a b)
    (h : path.EndsWith initial name) {place : Place} (hplace : a.place path = .ok place) :
    b.place path = .ok place := by
  rw [place_eq_ok_iff h] at hplace ⊢
  obtain ⟨hcheck, directory, hfollow, hnode, rfl⟩ := hplace
  have hne : directory ≠ location := by
    rintro rfl
    exact hagree.left hnode
  have hfollow' := hagree.follow_eq_ok (fun heq => absurd heq hne) hfollow
  rw [← hagree.start_eq path] at hfollow'
  exact ⟨hcheck, directory, hfollow', by rw [hagree.elsewhere directory hne, hnode], rfl⟩

/-- Nothing is found at a path whose place is free. -/
theorem at?_eq_none_of_place (h : path.EndsWith initial name) {place : Place}
    (hplace : tree.place path = .ok place) (hfree : tree.node? place.location = none) :
    tree.at? path = none := by
  rw [Option.eq_none_iff_forall_ne_some]
  intro node hat
  obtain ⟨location, hlocate, hsome⟩ := at?_eq_some_iff.mp hat
  obtain ⟨other, hother, -, -, rfl⟩ := (locate_eq_ok_iff_place h).mp hlocate
  rw [hplace] at hother
  obtain rfl := Except.ok.inj hother
  rw [hfree] at hsome
  cases hsome

theorem erase_insert {location : Location} (h : tree.hasRoom location = true)
    (contents : ByteArray) :
    (tree.insert location (.file contents)).erase location = tree.erase location := by
  have hagree := agreesOff_insert h contents
  apply FileTree.ext
  · intro other
    rw [node?_erase hagree.right, node?_erase hagree.left, node?_insert h]
    split <;> rfl
  · simp

theorem erase_of_none {location : Location} (h : tree.node? location = none) :
    tree.erase location = tree := by
  have hfree : tree.node? location ≠ some .directory := by simp [h]
  apply FileTree.ext
  · intro other
    rw [node?_erase hfree]
    split
    · rename_i hother
      rw [← hother, h]
    · rfl
  · simp

/-- Removing a file that was just written leaves what removing it before would have left. -/
theorem without_of_write (h : path.EndsWith initial name) {contents : ByteArray}
    {next : FileTree} (hwrite : tree.write path contents = .ok next) :
    next.without path = tree.without path := by
  obtain ⟨place, hplace, hname, hnode, rfl⟩ := (write_eq_ok_iff h).mp hwrite
  have hroom := hasRoom_of_place h hplace hnode
  have hplace' := (agreesOff_insert hroom contents).place_eq_ok h hplace
  rw [without_of_place h hplace' hname (node?_insert_self hroom _), erase_insert hroom]
  -- If there was no file before, then there was nothing, since the file could be written.
  rcases without_cases h tree with ⟨other, old, hother, -, -, herase⟩ | ⟨hsame, hnone⟩
  · rw [hplace] at hother
    cases hother
    exact herase.symm
  · rw [hsame]
    apply erase_of_none
    cases hold : tree.node? place.location with
    | none => rfl
    | some node =>
      cases node with
      | directory => exact absurd hold hnode
      | file old =>
        have hlocate := (locate_eq_ok_iff_place h).mpr
          ⟨place, hplace, hname, by rw [hold]; rfl, rfl⟩
        exact absurd (at?_eq_some_iff.mpr ⟨_, hlocate, hold⟩) (hnone old)

end HackAssembler.FileTree
