/-
  HackAssembler.SymbolTable

  Symbols and the addresses they stand for. A name has at most one address; several names may
  share one. A new table holds the 23 names that the machine itself defines.

  The table is extensional: two tables with the same bindings are equal, whatever operations they
  come from. `SymbolTable.get?` is the view through which the operations are described.
-/
import Std.Data.ExtTreeMap

namespace HackAssembler

/-! ## Addresses -/

/-- An address of the 16-bit machine, in its program or in its data memory. -/
abbrev Address := BitVec 16

/-- The first address given to a variable. -/
def variableBase : Nat := 16

/-- The names that the machine defines, with their addresses. -/
def reservedSymbols : List (String × Address) :=
  [("SP", 0#16), ("LCL", 1#16), ("ARG", 2#16), ("THIS", 3#16), ("THAT", 4#16),
   ("R0", 0#16), ("R1", 1#16), ("R2", 2#16), ("R3", 3#16), ("R4", 4#16), ("R5", 5#16),
   ("R6", 6#16), ("R7", 7#16), ("R8", 8#16), ("R9", 9#16), ("R10", 10#16), ("R11", 11#16),
   ("R12", 12#16), ("R13", 13#16), ("R14", 14#16), ("R15", 15#16),
   ("SCREEN", 0x4000#16), ("KBD", 0x6000#16)]

theorem reservedSymbols_nodup : (reservedSymbols.map Prod.fst).Nodup := by decide

/-- Tells whether the machine defines a name. -/
def isReserved (name : String) : Bool :=
  reservedSymbols.any fun entry => entry.1 == name

/-! ## The table -/

/-- A finite map from names to addresses. -/
structure SymbolTable where
  bindings : Std.ExtTreeMap String Address

namespace SymbolTable

/-- The table without a name. -/
def empty : SymbolTable := ⟨∅⟩

/-- The address of a name, if it is bound. -/
def get? (table : SymbolTable) (name : String) : Option Address :=
  table.bindings[name]?

def contains (table : SymbolTable) (name : String) : Bool :=
  table.bindings.contains name

/-- The number of bound names. -/
def size (table : SymbolTable) : Nat :=
  table.bindings.size

def isEmpty (table : SymbolTable) : Bool :=
  table.bindings.isEmpty

/-- Binds a name to an address, instead of the one it had. -/
def insert (table : SymbolTable) (name : String) (address : Address) : SymbolTable :=
  ⟨table.bindings.insert name address⟩

/-- Unbinds a name. -/
def erase (table : SymbolTable) (name : String) : SymbolTable :=
  ⟨table.bindings.erase name⟩

/-- Unbinds every name of an address. -/
def eraseAddress (table : SymbolTable) (address : Address) : SymbolTable :=
  ⟨table.bindings.filter fun _ bound => bound ≠ address⟩

/-- Unbinds a name and tells which address it had. -/
def remove (table : SymbolTable) (name : String) : Option Address × SymbolTable :=
  (table.get? name, table.erase name)

/-- Unbinds every name of an address and tells how many there were. -/
def removeAddress (table : SymbolTable) (address : Address) : Nat × SymbolTable :=
  (table.size - (table.eraseAddress address).size, table.eraseAddress address)

/-- The table that binds the names the machine defines, and no other. -/
def reserved : SymbolTable :=
  reservedSymbols.foldl (fun table entry => table.insert entry.1 entry.2) empty

/-! ## Listing -/

/-- Orders entries by address, and names of one address by their code points. -/
def compareEntries : String × Address → String × Address → Ordering :=
  compareLex (compareOn fun entry => entry.2.toNat) (compareOn Prod.fst)

/-- All entries in the order of `compareEntries`. -/
def sorted (table : SymbolTable) : List (String × Address) :=
  table.bindings.toList.mergeSort fun a b => (compareEntries a b).isLE

/-! ## What the operations do to the bindings -/

@[ext] theorem ext {a b : SymbolTable} (h : ∀ name, a.get? name = b.get? name) : a = b := by
  cases a
  cases b
  congr
  exact Std.ExtTreeMap.ext_getElem? fun name => h name

theorem get?_empty (name : String) : empty.get? name = none := by
  simp [empty, get?]

theorem get?_insert (table : SymbolTable) (name other : String) (address : Address) :
    (table.insert name address).get? other =
      if name = other then some address else table.get? other := by
  simp [insert, get?, Std.ExtTreeMap.getElem?_insert]

theorem get?_erase (table : SymbolTable) (name other : String) :
    (table.erase name).get? other = if name = other then none else table.get? other := by
  simp [erase, get?, Std.ExtTreeMap.getElem?_erase]

theorem get?_eraseAddress (table : SymbolTable) (address : Address) (name : String) :
    (table.eraseAddress address).get? name = (table.get? name).filter (· ≠ address) := by
  simp [eraseAddress, get?]

theorem contains_eq_isSome (table : SymbolTable) (name : String) :
    table.contains name = (table.get? name).isSome := by
  simp [contains, get?]

end SymbolTable

end HackAssembler
