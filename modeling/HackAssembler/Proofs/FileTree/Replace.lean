/-
  HackAssembler.Proofs.FileTree.Replace

  Moving a file to another place. A move that succeeds takes the file from its place and puts it
  into a place that holds no directory (`replace_eq_ok_iff`), and the path it goes to ends with a
  name.
-/
import HackAssembler.Proofs.FileTree

namespace HackAssembler.FileTree

variable {tree : FileTree} {path : Path}

/-! ## Files -/

theorem read_eq_ok_iff {contents : ByteArray} :
    tree.read path = .ok contents ↔ tree.at? path = some (.file contents) := by
  rw [read, except_bind_eq_ok_iff, at?_eq_some_iff]
  refine exists_congr fun location => and_congr_right fun _ => ?_
  cases hnode : tree.node? location with
  | none =>
    constructor
    · intro h
      cases h
    · intro h
      cases h
  | some node =>
    cases node with
    | directory =>
      constructor
      · intro h
        cases h
      · intro h
        cases h
    | file other =>
      constructor
      · intro h
        cases h
        rfl
      · intro h
        cases h
        rfl

/-- Putting into a place what it holds changes nothing. -/
theorem insert_of_node?_eq_some {location : Location} {node : FileNode}
    (h : tree.node? location = some node) : tree.insert location node = tree := by
  by_cases hroom : tree.hasRoom location = true
  · apply FileTree.ext
    · intro other
      rw [node?_insert hroom]
      split
      · rename_i hother
        rw [← hother, h]
      · rfl
    · simp
  · exact insert_of_not_hasRoom hroom node

/-! ## Places of paths -/

/-- A path with a named place and no `/` behind it ends with that name. -/
theorem exists_endsWith_of_place {place : Place} (hplace : tree.place path = .ok place)
    (hnamed : place.isNamed = true) (hslash : place.slash = false) :
    ∃ initial, path.EndsWith initial place.name := by
  rw [FileTree.place, except_bind_eq_ok_iff] at hplace
  obtain ⟨⟨⟩, hcheck, hplace⟩ := hplace
  split at hplace
  · -- Nothing but `/` names the root.
    cases hplace
    cases hslash
  · rename_i name before hbefore
    obtain ⟨directory, -, hplace⟩ := except_bind_eq_ok_iff.mp hplace
    cases hplace
    have hlast : path.text.toList.getLast? ≠ some '/' := by simpa using hslash
    obtain ⟨initial, last, hcomponents, hne⟩ :=
      Path.exists_components_of_getLast?_ne (text_ne_empty_of_checkPath hcheck) hlast
    have hsame : last = name := by
      rw [hcomponents] at hbefore
      simp [hne] at hbefore
      exact hbefore.1
    subst hsame
    simp only [Place.isNamed, Bool.and_eq_true, Bool.not_eq_true', bne_iff_ne, ne_eq] at hnamed
    exact ⟨initial, hcomponents, hnamed.1, hnamed.2, hlast⟩

/-! ## Moving a file -/

/-- A file is moved to a name that no directory has. -/
theorem replace_eq_ok_iff {source target : Path} {initial : List String} {name : String}
    (h : source.EndsWith initial name) {next : FileTree} :
    tree.replace source target = .ok next ↔
      ∃ first second contents, tree.place source = .ok first ∧ tree.place target = .ok second ∧
        second.isNamed = true ∧ second.slash = false ∧ checkName first.name = .ok () ∧
        checkName second.name = .ok () ∧ tree.node? first.location = some (.file contents) ∧
        tree.node? second.location ≠ some .directory ∧
        next = (tree.erase first.location).insert second.location (.file contents) := by
  rw [replace, except_bind_eq_ok_iff]
  constructor
  · rintro ⟨first, hfirst, hmove⟩
    obtain ⟨second, hsecond, hmove⟩ := except_bind_eq_ok_iff.mp hmove
    obtain ⟨hnamed, hslash⟩ := isNamed_of_place h hfirst
    rw [hnamed, hslash] at hmove
    -- The checks that refuse the move come in the order in which they are made.
    cases hnamed' : second.isNamed with
    | false =>
      rw [hnamed'] at hmove
      cases hmove
    | true =>
      rw [hnamed'] at hmove
      obtain ⟨⟨⟩, hname, hmove⟩ := except_bind_eq_ok_iff.mp hmove
      obtain ⟨⟨⟩, hname', hmove⟩ := except_bind_eq_ok_iff.mp hmove
      cases hnode : tree.node? first.location with
      | none =>
        rw [hnode] at hmove
        cases hmove
      | some node =>
        rw [hnode] at hmove
        cases node with
        | directory => cases hmove
        | file contents =>
          cases hslash' : second.slash with
          | true =>
            rw [hslash'] at hmove
            cases hmove
          | false =>
            simp only [hslash', Bool.or_false, Bool.false_eq_true, if_false] at hmove
            split at hmove
            · cases hmove
            · rename_i hfree
              cases hmove
              exact ⟨first, second, contents, hfirst, hsecond, hnamed', hslash', hname, hname',
                hnode, hfree, rfl⟩
  · rintro ⟨first, second, contents, hfirst, hsecond, hnamed', hslash', hname, hname', hnode, hfree,
      rfl⟩
    obtain ⟨hnamed, hslash⟩ := isNamed_of_place h hfirst
    refine ⟨first, hfirst, except_bind_eq_ok_iff.mpr ⟨second, hsecond, ?_⟩⟩
    rw [hnamed, hnamed', hnode]
    simp only [hslash, hslash', Bool.or_false, Bool.not_true, Bool.false_eq_true, if_false]
    refine except_bind_eq_ok_iff.mpr ⟨(), hname, except_bind_eq_ok_iff.mpr ⟨(), hname', rfl⟩⟩

end HackAssembler.FileTree
