/-
  HackAssembler.SymbolTable.History

  Tables that come from a row of changes. Which address a name has is settled by the row alone: it is
  that of the last insertion of the name, or the one that the machine defines, as long as nothing
  after it puts an end to it.
-/
import HackAssembler.SymbolTable

namespace HackAssembler.SymbolTable

/-- A change of a table. -/
inductive Operation where
  | insert (name : String) (address : Address)
  | remove (name : String)
  | removeAddress (address : Address)
deriving DecidableEq, Repr

/-- The table after a change. -/
def Operation.apply (table : SymbolTable) : Operation → SymbolTable
  | insert name address => table.insert name address
  | remove name => (table.remove name).2
  | removeAddress address => (table.removeAddress address).2

/-- Tells whether a name with an address loses it: the name is bound again or removed, or all names
    of the address are. -/
def Operation.ends (name : String) (address : Address) : Operation → Bool
  | insert other _ => other == name
  | remove other => other == name
  | removeAddress other => other == address

/-- The table after a row of changes to the names of the machine. -/
def after (history : List Operation) : SymbolTable :=
  history.foldl Operation.apply reserved

/-- An address is the one that a name was given last, and nothing has ended that since. -/
def LastBound (history : List Operation) (name : String) (address : Address) : Prop :=
  (∃ earlier later, history = earlier ++ .insert name address :: later ∧
    ∀ operation ∈ later, operation.ends name address = false) ∨
  (reservedSymbols.lookup name = some address ∧
    ∀ operation ∈ history, operation.ends name address = false)

end HackAssembler.SymbolTable
