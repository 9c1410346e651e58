/-
  HackAssembler.Proofs.SymbolTable.History

  A table is a finite map after any row of changes. One change gives a name an address or keeps the
  address that it had (`get?_apply_eq_some_iff`), and the last binding of a name is settled by the
  last change in the same way (`lastBound_append_singleton`); so the one is found in the table
  exactly if it is the other. The number of names is that of the bindings, which every removal by
  address takes apart into two sets of names.
-/
import HackAssembler.Proofs.SymbolTable
import HackAssembler.SymbolTable.History
import Mathlib.Data.Set.Card

namespace HackAssembler.SymbolTable

variable {table : SymbolTable} {history : List Operation} {operation : Operation} {name : String}
  {address : Address}

/-! ## The last binding of a name -/

/-- A change binds a name, or leaves it what it had. -/
theorem get?_apply_eq_some_iff : (operation.apply table).get? name = some address ↔
    operation = .insert name address ∨
      (table.get? name = some address ∧ operation.ends name address = false) := by
  cases operation with
  | insert other bound =>
    rw [Operation.apply, get?_insert, Operation.ends]
    by_cases hname : other = name
    · simp [hname]
    · simp [hname]
  | remove other =>
    rw [Operation.apply, remove, get?_erase, Operation.ends]
    by_cases hname : other = name
    · simp [hname]
    · simp [hname]
  | removeAddress other =>
    rw [Operation.apply, removeAddress, get?_eraseAddress, Option.filter_eq_some_iff,
      Operation.ends]
    simp [ne_comm]

theorem lastBound_nil :
    LastBound [] name address ↔ reservedSymbols.lookup name = some address := by
  constructor
  · rintro (⟨earlier, later, hsplit, -⟩ | ⟨hreserved, -⟩)
    · simp at hsplit
    · exact hreserved
  · exact fun hreserved => .inr ⟨hreserved, List.forall_mem_nil _⟩

/-- The last change binds a name, or leaves what was bound before it. -/
theorem lastBound_append_singleton : LastBound (history ++ [operation]) name address ↔
    operation = .insert name address ∨
      (LastBound history name address ∧ operation.ends name address = false) := by
  constructor
  · rintro (⟨earlier, later, hsplit, hlater⟩ | ⟨hreserved, hhistory⟩)
    · -- The insertion is the last change itself, or the last change comes after it.
      rcases List.eq_nil_or_concat later with rfl | ⟨front, last, rfl⟩
      · obtain ⟨-, hlast⟩ := List.append_inj' hsplit rfl
        exact .inl (List.head_eq_of_cons_eq hlast)
      · rw [List.concat_eq_append, ← List.cons_append, ← List.append_assoc] at hsplit
        obtain ⟨rfl, hlast⟩ := List.append_inj' hsplit rfl
        obtain rfl := List.head_eq_of_cons_eq hlast
        rw [List.concat_eq_append, List.forall_mem_append, List.forall_mem_singleton] at hlater
        exact .inr ⟨.inl ⟨earlier, front, rfl, hlater.1⟩, hlater.2⟩
    · rw [List.forall_mem_append, List.forall_mem_singleton] at hhistory
      exact .inr ⟨.inr ⟨hreserved, hhistory.1⟩, hhistory.2⟩
  · rintro (rfl | ⟨⟨earlier, later, rfl, hlater⟩ | ⟨hreserved, hhistory⟩, hlast⟩)
    · exact .inl ⟨history, [], rfl, by simp⟩
    · refine .inl ⟨earlier, later ++ [operation], by simp, ?_⟩
      rw [List.forall_mem_append, List.forall_mem_singleton]
      exact ⟨hlater, hlast⟩
    · refine .inr ⟨hreserved, ?_⟩
      rw [List.forall_mem_append, List.forall_mem_singleton]
      exact ⟨hhistory, hlast⟩

theorem after_append_singleton (history : List Operation) (operation : Operation) :
    after (history ++ [operation]) = operation.apply (after history) := by
  rw [after, List.foldl_append]
  rfl

/-- A table has the last bindings, whatever was done to it. -/
theorem get?_after : (after history).get? name = some address ↔ LastBound history name address := by
  induction history using List.reverseRecOn with
  | nil =>
    rw [after, List.foldl_nil, get?_reserved, lastBound_nil]
  | append_singleton history operation ih =>
    rw [after_append_singleton, get?_apply_eq_some_iff, ih, lastBound_append_singleton]

/-! ## Numbers of names -/

/-- A table counts the names that it binds. -/
theorem encard_setOf_isSome (table : SymbolTable) :
    {name | (table.get? name).isSome = true}.encard = table.size := by
  have hkeys : {name | (table.get? name).isSome = true} = table.bindings.keys.toFinset := by
    ext name
    rw [Set.mem_ofPred_eq, List.coe_toFinset, Set.mem_ofPred_eq, mem_keys_bindings]
  rw [hkeys, Set.encard_coe_eq_coe_finsetCard,
    List.toFinset_card_of_nodup Std.ExtTreeMap.nodup_keys, Std.ExtTreeMap.length_keys, size]

/-- The names of a table are those of an address and those of the others. -/
theorem encard_setOf_eq_add (table : SymbolTable) (address : Address) :
    {name | table.get? name = some address}.encard + (table.eraseAddress address).size =
      table.size := by
  rw [← encard_setOf_isSome, ← encard_setOf_isSome, ← Set.encard_union_eq]
  · congr 1
    ext name
    rw [Set.mem_union, Set.mem_ofPred_eq, Set.mem_ofPred_eq, Set.mem_ofPred_eq, get?_eraseAddress]
    cases table.get? name with
    | none => simp
    | some bound => simp [Option.filter, em]
  · rw [Set.disjoint_left]
    intro name hname
    rw [Set.mem_ofPred_eq] at hname
    rw [Set.mem_ofPred_eq, get?_eraseAddress, hname]
    simp

/-- A removal by address tells how many names had the address, which are the ones that are gone. -/
theorem encard_removeAddress (table : SymbolTable) (address : Address) :
    {name | table.get? name = some address}.encard = (table.removeAddress address).1 ∧
      (table.removeAddress address).1 + (table.removeAddress address).2.size = table.size := by
  have hadd := encard_setOf_eq_add table address
  -- There are no more of these names than the table has, so they have a number.
  obtain ⟨count, hcount⟩ := ENat.ne_top_iff_exists.mp
    (ne_top_of_le_ne_top (ENat.natCast_ne_top table.size) (le_of_add_le_left hadd.le))
  rw [← hcount] at hadd ⊢
  have hsum : count + (table.eraseAddress address).size = table.size := by exact_mod_cast hadd
  have hfirst : (table.removeAddress address).1 = count := by
    rw [removeAddress]
    omega
  rw [hfirst]
  exact ⟨rfl, hsum⟩

theorem size_insert (table : SymbolTable) (name : String) (address : Address) :
    (table.insert name address).size =
      if (table.get? name).isSome = true then table.size else table.size + 1 := by
  rw [size, insert, Std.ExtTreeMap.size_insert, ← contains, contains_eq_isSome, size]

theorem length_sorted (table : SymbolTable) : table.sorted.length = table.size := by
  rw [sorted, List.length_mergeSort, Std.ExtTreeMap.length_toList, size]

theorem isEmpty_iff (table : SymbolTable) : table.isEmpty = true ↔ table.size = 0 := by
  rw [isEmpty, Std.ExtTreeMap.isEmpty_eq_size_beq_zero, beq_iff_eq, size]

/-! ## Main result -/

/-- A table is the finite map from names to addresses that is given by `bound`. -/
structure IsFiniteMap (table : SymbolTable) (bound : String → Address → Prop) : Prop where
  get? : ∀ name address, table.get? name = some address ↔ bound name address
  contains : ∀ name, table.contains name = (table.get? name).isSome
  /-- An insertion changes no other name. -/
  insert : ∀ name address other, (table.insert name address).get? other =
    if name = other then some address else table.get? other
  /-- An insertion counts if the name is new. -/
  size_insert : ∀ name address, (table.insert name address).size =
    if (table.get? name).isSome = true then table.size else table.size + 1
  /-- A removal tells what was bound, and changes no other name. -/
  remove : ∀ name, (table.remove name).1 = table.get? name ∧
    ∀ other, (table.remove name).2.get? other = if name = other then none else table.get? other
  /-- A removal by address unbinds the names of the address and no other. -/
  removeAddress : ∀ address name, (table.removeAddress address).2.get? name =
    if table.get? name = some address then none else table.get? name
  /-- A removal by address tells how many names had it, and that many are gone. -/
  count : ∀ address,
    {name | table.get? name = some address}.encard = (table.removeAddress address).1 ∧
      (table.removeAddress address).1 + (table.removeAddress address).2.size = table.size
  size : {name | (table.get? name).isSome = true}.encard = table.size
  sorted : table.sorted.length = table.size
  isEmpty : table.isEmpty = true ↔ table.size = 0

/-- A table is a finite map after any row of changes. It has the last bindings, each change has its
    own effect and no other, and the number of names is always that of the bindings. -/
theorem isFiniteMap_after (history : List Operation) :
    IsFiniteMap (after history) (LastBound history) where
  get? _ _ := get?_after
  contains := contains_eq_isSome _
  insert _ _ _ := get?_insert ..
  size_insert := size_insert _
  remove name := ⟨rfl, get?_erase _ name⟩
  removeAddress address name := by
    rw [removeAddress, get?_eraseAddress]
    cases (after history).get? name with
    | none => simp
    | some bound => by_cases hbound : bound = address <;> simp [hbound, Option.filter]
  count := encard_removeAddress _
  size := encard_setOf_isSome _
  sorted := length_sorted _
  isEmpty := isEmpty_iff _

/-- Two reserved names and one of the program share an address, which is removed; one of them is
    bound again. -/
theorem isFiniteMap_after_shared :
    let history := [.insert "x" 4#16, .removeAddress 4#16, .insert "THAT" 9#16]
    (after history).get? "THAT" = some 9#16 ∧ (after history).get? "R5" = some 5#16 ∧
      ∀ address, ¬ LastBound history "R4" address := by
  intro history
  obtain ⟨hget, -⟩ := isFiniteMap_after history
  refine ⟨(hget _ _).mpr (.inl ?_), (hget _ _).mpr (.inr ?_), fun address => ?_⟩
  · exact ⟨[.insert "x" 4#16, .removeAddress 4#16], [], rfl, List.forall_mem_nil _⟩
  · exact ⟨by decide, by decide⟩
  · rw [← hget, show (after history).get? "R4" = none by decide +kernel]
    simp

end HackAssembler.SymbolTable
