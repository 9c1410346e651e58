/-
  HackAssembler.Proofs.SymbolTable.Sorted

  The listing of a table is canonical. No two bindings of a table have the same name, so the order
  of entries is strict on them and there is one list of all bindings in this order
  (`IsListingOf.unique`). Sorting makes this list from any arrangement of the bindings
  (`Arranges.isListingOf_mergeSort`), so neither the arrangement nor the way to the table is left
  in it.
-/
import HackAssembler.Listing
import HackAssembler.Proofs.SymbolTable
import HackAssembler.Proofs.Text.Utf8
import HackAssembler.SymbolTable.History

namespace HackAssembler.SymbolTable

variable {table : SymbolTable} {entries others : List (String × Address)}
  {entry next : String × Address}

/-! ## The order of entries -/

/-- An entry comes before another one if its address is smaller, or if the addresses are the same
    and the bytes of its name are smaller. -/
def Precedes (entry next : String × Address) : Prop :=
  entry.2.toNat < next.2.toNat ∨
    (entry.2 = next.2 ∧ Text.utf8Bytes entry.1 < Text.utf8Bytes next.1)

theorem compareEntries_eq_lt_iff : compareEntries entry next = .lt ↔ Precedes entry next := by
  rw [compareEntries, compareLex, Ordering.then_eq_lt, compareOn, compareOn, Nat.compare_eq_lt,
    Nat.compare_eq_eq, Precedes, Text.utf8Bytes_lt_iff, ← BitVec.toNat_inj]
  exact or_congr Iff.rfl (and_congr_right fun _ => compareOfLessAndEq_eq_lt)

theorem compareEntries_eq_eq_iff : compareEntries entry next = .eq ↔ entry = next := by
  rw [compareEntries, compareLex_eq_eq, compareOn, compareOn, Nat.compare_eq_eq,
    Std.LawfulEqOrd.compare_eq_iff_eq, BitVec.toNat_inj, Prod.ext_iff, and_comm]

instance : Std.TransCmp compareEntries :=
  inferInstanceAs (Std.TransCmp (compareLex _ _))

theorem isLE_compareEntries_total (entry next : String × Address) :
    ((compareEntries entry next).isLE || (compareEntries next entry).isLE) = true := by
  rw [@Std.OrientedCmp.eq_swap _ compareEntries _ next entry]
  cases compareEntries entry next <;> rfl

theorem Precedes.asymm (h : Precedes entry next) : ¬ Precedes next entry := by
  rw [← compareEntries_eq_lt_iff] at h
  rw [← compareEntries_eq_lt_iff, @Std.OrientedCmp.eq_swap _ compareEntries, h]
  decide

/-! ## Listings -/

/-- A list holds each binding of a table once, and nothing else. -/
def Arranges (table : SymbolTable) (entries : List (String × Address)) : Prop :=
  ∀ name address, entries.count (name, address) =
    if table.get? name = some address then 1 else 0

/-- A list holds the bindings of a table in order. -/
structure IsListingOf (table : SymbolTable) (entries : List (String × Address)) : Prop where
  arranges : table.Arranges entries
  increasing : entries.Pairwise Precedes

theorem Arranges.perm (h : table.Arranges entries) (h' : table.Arranges others) :
    entries.Perm others := by
  rw [List.perm_iff_count]
  rintro ⟨name, address⟩
  rw [h, h']

theorem Arranges.of_perm (h : table.Arranges entries) (hperm : others.Perm entries) :
    table.Arranges others := by
  intro name address
  rw [hperm.count_eq, h]

/-- There is one listing of a table. -/
theorem IsListingOf.unique (h : table.IsListingOf entries) (h' : table.IsListingOf others) :
    entries = others :=
  List.Perm.eq_of_pairwise (fun _ _ _ _ hlt hgt => absurd hgt hlt.asymm) h.increasing h'.increasing
    (h.arranges.perm h'.arranges)

theorem Arranges.mem_iff (h : table.Arranges entries) {name : String} {address : Address} :
    (name, address) ∈ entries ↔ table.get? name = some address := by
  rw [← List.count_pos_iff, h]
  split
  · simp_all
  · simp_all

theorem Arranges.nodup (h : table.Arranges entries) : entries.Nodup := by
  rw [List.nodup_iff_count]
  rintro ⟨name, address⟩
  rw [h]
  split <;> omega

/-- Sorting makes the listing from any arrangement of the bindings. -/
theorem Arranges.isListingOf_mergeSort (h : table.Arranges entries) :
    table.IsListingOf (entries.mergeSort fun a b => (compareEntries a b).isLE) where
  arranges := h.of_perm (List.mergeSort_perm ..)
  increasing := by
    have hsorted := List.pairwise_mergeSort (fun _ _ _ => Std.TransCmp.isLE_trans)
      isLE_compareEntries_total entries
    have hnodup := (List.mergeSort_perm entries fun a b => (compareEntries a b).isLE).nodup_iff.mpr
      h.nodup
    -- No entry comes twice, so none is followed by its equal.
    refine hsorted.imp₂ (fun a b hle hne => ?_) hnodup
    rw [← compareEntries_eq_lt_iff]
    rcases Ordering.isLE_iff_eq_lt_or_eq_eq.mp hle with hlt | heq
    · exact hlt
    · exact absurd (compareEntries_eq_eq_iff.mp heq) hne

theorem arranges_toList (table : SymbolTable) : table.Arranges table.bindings.toList := by
  intro name address
  have hnodup : table.bindings.toList.Nodup := by
    refine Std.ExtTreeMap.distinct_keys_toList.imp ?_
    rintro a b hne rfl
    exact hne Std.ReflOrd.compare_self
  rw [hnodup.count]
  exact if_congr Std.ExtTreeMap.mem_toList_iff_getElem?_eq_some rfl rfl

theorem isListingOf_sorted (table : SymbolTable) : table.IsListingOf table.sorted :=
  table.arranges_toList.isListingOf_mergeSort

theorem mem_sorted_iff {name : String} {address : Address} :
    (name, address) ∈ table.sorted ↔ table.get? name = some address :=
  table.isListingOf_sorted.arranges.mem_iff

/-- A table is settled by its listing. -/
theorem eq_of_sorted_eq {table other : SymbolTable} (h : table.sorted = other.sorted) :
    table = other := by
  ext name address
  rw [← mem_sorted_iff, ← mem_sorted_iff, h]

/-! ## Main result -/

/-- The listing of a table holds each binding once and nothing else, in strictly increasing order of
    the addresses and then of the bytes of the names. Whatever other row of changes leads to the
    same bindings, and however these are arranged before they are sorted, the listing is the same,
    and so is what is printed of it. -/
theorem sorted_canonical (history : List Operation) :
    (after history).IsListingOf (after history).sorted ∧
      ∀ other, (∀ name, (after other).get? name = (after history).get? name) →
        (after other).sorted = (after history).sorted ∧
        (∀ arrangement, (after other).Arranges arrangement →
          (arrangement.mergeSort fun a b => (compareEntries a b).isLE) = (after history).sorted) ∧
        ∀ words words', Listing.ofSymbols ⟨words, after other⟩ =
          Listing.ofSymbols ⟨words', after history⟩ := by
  refine ⟨isListingOf_sorted _, fun other hsame => ?_⟩
  have harranges {entries : List (String × Address)} (h : (after other).Arranges entries) :
      (after history).Arranges entries := by
    intro name address
    rw [h, hsame]
  have hsort {entries : List (String × Address)} (h : (after other).Arranges entries) :
      (entries.mergeSort fun a b => (compareEntries a b).isLE) = (after history).sorted :=
    (harranges h).isListingOf_mergeSort.unique (isListingOf_sorted _)
  have hsorted : (after other).sorted = (after history).sorted := hsort (arranges_toList _)
  refine ⟨hsorted, fun _ => hsort, fun words words' => ?_⟩
  rw [Listing.ofSymbols, Listing.ofSymbols, hsorted]

/-- Two names that are bound in one order, and in the other with a detour over a third name and
    another address. -/
theorem sorted_canonical_detour :
    let history := [.insert "b" 16#16, .insert "a" 16#16]
    let other := [.insert "a" 5#16, .insert "é" 7#16, .insert "b" 16#16, .remove "é",
      .insert "a" 16#16]
    (∀ name, (after other).get? name = (after history).get? name) ∧
      (after other).sorted = (after history).sorted := by
  intro history other
  have hsame (name : String) : (after other).get? name = (after history).get? name := by
    have hunbound : reserved.get? "é" = none := by decide +kernel
    simp only [history, other, after, List.foldl_cons, List.foldl_nil, Operation.apply, remove,
      get?_insert, get?_erase]
    by_cases hname : "é" = name
    · obtain rfl := hname
      simp [hunbound]
    · by_cases hfirst : "a" = name <;> simp [hname, hfirst]
  exact ⟨hsame, ((sorted_canonical history).2 other hsame).1⟩

end HackAssembler.SymbolTable
