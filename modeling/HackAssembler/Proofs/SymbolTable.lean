/-
  HackAssembler.Proofs.SymbolTable

  What a table holds after a row of insertions, and in particular before the first line of a
  program is read: the names of the machine with their addresses, and nothing else.
-/
import HackAssembler.SymbolTable
import Mathlib.Data.List.Nodup

namespace HackAssembler.SymbolTable

/-- Of several insertions of one name the last one counts. -/
theorem get?_foldl_insert (entries : List (String × Address)) (table : SymbolTable)
    (name : String) :
    (entries.foldl (fun table entry => table.insert entry.1 entry.2) table).get? name =
      (entries.reverse.lookup name).or (table.get? name) := by
  induction entries generalizing table with
  | nil => simp
  | cons entry entries ih =>
    obtain ⟨bound, address⟩ := entry
    rw [List.foldl_cons, ih, get?_insert, List.reverse_cons, List.lookup_append, Option.or_assoc,
      List.lookup_cons, List.lookup_nil]
    by_cases h : bound = name
    · simp [h]
    · have hne : (name == bound) = false := beq_eq_false_iff_ne.mpr fun heq => h heq.symm
      simp [h, hne]

/-- With distinct names the order of the entries does not matter for a look-up. -/
theorem lookup_reverse {entries : List (String × Address)}
    (h : (entries.map Prod.fst).Nodup) (name : String) :
    entries.reverse.lookup name = entries.lookup name := by
  induction entries with
  | nil => rfl
  | cons entry entries ih =>
    obtain ⟨bound, address⟩ := entry
    rw [List.map_cons, List.nodup_cons] at h
    rw [List.reverse_cons, List.lookup_append, ih h.2, List.lookup_cons, List.lookup_cons,
      List.lookup_nil]
    cases hname : name == bound with
    | false => simp
    | true =>
      -- The first entry has the name, so no other one has it.
      have hnone : entries.lookup name = none := by
        rw [List.lookup_eq_none_iff]
        intro other hother
        rw [bne_iff_ne]
        rintro rfl
        exact h.1 (List.mem_map.mpr ⟨other, hother, eq_of_beq hname⟩)
      simp [hnone]

theorem mem_keys_bindings {table : SymbolTable} {name : String} :
    name ∈ table.bindings.keys ↔ (table.get? name).isSome = true := by
  rw [Std.ExtTreeMap.mem_keys, Std.ExtTreeMap.mem_iff_isSome_getElem?, get?]

theorem get?_reserved (name : String) : reserved.get? name = reservedSymbols.lookup name := by
  rw [reserved, get?_foldl_insert, lookup_reverse reservedSymbols_nodup, get?_empty, Option.or_none]

end HackAssembler.SymbolTable
