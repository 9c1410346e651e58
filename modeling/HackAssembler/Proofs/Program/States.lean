/-
  HackAssembler.Proofs.Program.States

  The states that are reached while words are emitted, those in the middle of a line included. A
  symbol gets its address before the word with this address is added, and the word is where an
  address that is too large is found. So the next variable may be one too large in the middle of a
  line, but not between two lines (`Emission.Allocated.addLine`); since no line begins with a larger
  one, there is always an address for it.
-/
import HackAssembler.Proofs.Program.Emission

namespace HackAssembler

/-- Every name of a table has the same address in another one. -/
def SymbolTable.IsKeptBy (table other : SymbolTable) : Prop :=
  ∀ name address, table.get? name = some address → other.get? name = some address

theorem SymbolTable.IsKeptBy.refl (table : SymbolTable) : table.IsKeptBy table :=
  fun _ _ h => h

theorem SymbolTable.IsKeptBy.trans {table other last : SymbolTable} (h : table.IsKeptBy other)
    (h' : other.IsKeptBy last) : table.IsKeptBy last :=
  fun name address hname => h' name address (h name address hname)

/-- A new name leaves the others as they are. -/
theorem SymbolTable.isKeptBy_insert {table : SymbolTable} {name : String}
    (h : table.get? name = none) (address : Address) :
    table.IsKeptBy (table.insert name address) := by
  intro other bound hother
  have hne : name ≠ other := by
    rintro rfl
    rw [h] at hother
    cases hother
  rw [get?_insert, if_neg hne, hother]

namespace Emission

/-! ## States of a run -/

/-- The state in the middle of a line, if there is one: a symbol has its address, and the word of
    the line is still to be added. -/
def between (emission : Emission) (line : Line) : List Emission :=
  match line.command? with
  | .ok (some (.address symbol)) =>
    if Text.isDecimal symbol then []
    else
      match (emission.allocate line.number symbol).result with
      | .ok next => [next]
      | .error _ => []
  | _ => []

/-- The states that are reached while the words of some lines are emitted, in order. -/
def states (emission : Emission) : List Line → List Emission
  | [] => [emission]
  | line :: lines =>
    emission :: (emission.between line ++
      match (emission.addLine line).result with
      | .ok next => next.states lines
      | .error _ => [])

/-- The variables that got addresses since the labels were known, in the order in which they got
    them. -/
structure Allocated (labels : SymbolTable) (names : List String) (emission : Emission) :
    Prop where
  nodup : names.Nodup
  mem_iff : ∀ name, name ∈ names ↔
    labels.get? name = none ∧ (emission.symbols.get? name).isSome = true
  address : ∀ name ∈ names, emission.symbols.get? name =
    some (BitVec.ofNat 16 (variableBase + names.idxOf name))
  kept : labels.IsKeptBy emission.symbols
  nextVariable : emission.nextVariable = variableBase + names.length
  bounded : emission.nextVariable ≤ 32769

variable {labels : SymbolTable} {names : List String} {emission next final : Emission}
  {line : Line} {lines : List Line} {name : String}

theorem start_bounded : (start labels).nextVariable ≤ 32768 := by
  show variableBase ≤ 32768
  decide

theorem allocated_start (labels : SymbolTable) : Allocated labels [] (start labels) where
  nodup := .nil
  mem_iff name := by
    rw [start]
    cases labels.get? name <;> simp
  address name hname := by cases hname
  kept := .refl _
  nextVariable := rfl
  bounded := Nat.le_succ_of_le start_bounded

/-- Different variables have different addresses. -/
theorem Allocated.eq_of_get?_eq (h : Allocated labels names emission) {other : String}
    (hname : name ∈ names) (hother : other ∈ names)
    (heq : emission.symbols.get? name = emission.symbols.get? other) : name = other := by
  rw [h.address name hname, h.address other hother, Option.some.injEq] at heq
  have hidx := List.idxOf_lt_length_of_mem hname
  have hidx' := List.idxOf_lt_length_of_mem hother
  have hnext := h.nextVariable
  have hbounded := h.bounded
  have hvalue := congrArg BitVec.toNat heq
  rw [BitVec.toNat_ofNat, BitVec.toNat_ofNat, Nat.mod_eq_of_lt (by omega),
    Nat.mod_eq_of_lt (by omega)] at hvalue
  exact (List.idxOf_inj hname).mp (by omega)

/-! ## Looking up a symbol -/

/-- There is an address for a new symbol as long as the next one is in range. -/
theorem exists_allocate (hfits : emission.nextVariable < 65536) (number : Nat) (name : String) :
    ∃ next, (emission.allocate number name).result = .ok next := by
  cases hname : emission.symbols.get? name with
  | some address => exact ⟨_, congrArg Report.result (allocate_of_known hname)⟩
  | none => exact ⟨_, congrArg Report.result (allocate_of_fresh number hname hfits)⟩

/-- A symbol that is looked up was known before, or it gets the next address. -/
theorem allocate_cases {number : Nat} (h : (emission.allocate number name).result = .ok next) :
    next = emission ∨
    (emission.symbols.get? name = none ∧
      next.symbols = emission.symbols.insert name (BitVec.ofNat 16 emission.nextVariable) ∧
      next.nextVariable = emission.nextVariable + 1) := by
  cases hname : emission.symbols.get? name with
  | some address =>
    rw [allocate_of_known hname] at h
    cases h
    exact .inl rfl
  | none =>
    by_cases hfits : emission.nextVariable < 65536
    · rw [allocate_of_fresh number hname hfits] at h
      cases h
      exact .inr ⟨rfl, rfl, rfl⟩
    · rw [allocate, SymbolTable.contains_eq_isSome, hname,
        Binary.field?_of_le (Nat.le_of_not_lt hfits)] at h
      cases h

theorem isKeptBy_of_allocate {number : Nat}
    (h : (emission.allocate number name).result = .ok next) :
    emission.symbols.IsKeptBy next.symbols := by
  rcases allocate_cases h with rfl | ⟨hfresh, hsymbols, -⟩
  · exact .refl _
  · rw [hsymbols]
    exact SymbolTable.isKeptBy_insert hfresh _

/-- A new variable comes last. -/
theorem Allocated.insert (h : Allocated labels names emission)
    (hbounded : emission.nextVariable ≤ 32768) (hfresh : emission.symbols.get? name = none)
    (hsymbols : next.symbols =
      emission.symbols.insert name (BitVec.ofNat 16 emission.nextVariable))
    (hnext : next.nextVariable = emission.nextVariable + 1) :
    Allocated labels (names ++ [name]) next := by
  -- The name is bound in no table so far, neither as a label nor as a variable.
  have hnew : name ∉ names := by
    intro hname
    rw [h.mem_iff, hfresh] at hname
    simp at hname
  have hunbound : labels.get? name = none := by
    cases hlabel : labels.get? name with
    | none => rfl
    | some address =>
      rw [h.kept name address hlabel] at hfresh
      cases hfresh
  refine ⟨?_, fun other => ?_, fun other hother => ?_, ?_, ?_, by omega⟩
  · rw [List.nodup_append]
    simpa [h.nodup] using fun other hother => ne_of_mem_of_not_mem hother hnew
  · rw [List.mem_append, List.mem_singleton, h.mem_iff, hsymbols, SymbolTable.get?_insert]
    by_cases hother : name = other
    · simp [← hother, hunbound]
    · simp [hother, Ne.symm hother]
  · rw [hsymbols, SymbolTable.get?_insert, List.idxOf_append]
    by_cases hsame : name = other
    · rw [if_pos hsame, ← hsame, if_neg hnew, h.nextVariable]
      simp
    · have hold : other ∈ names := by
        rcases List.mem_append.mp hother with hold | hnew
        · exact hold
        · exact absurd (List.mem_singleton.mp hnew).symm hsame
      rw [if_neg hsame, if_pos hold, h.address other hold]
  · rw [hsymbols]
    exact h.kept.trans (SymbolTable.isKeptBy_insert hfresh _)
  · rw [hnext, h.nextVariable, List.length_append, List.length_singleton, Nat.add_assoc]

theorem Allocated.allocate (h : Allocated labels names emission)
    (hbounded : emission.nextVariable ≤ 32768) {number : Nat}
    (hnext : (emission.allocate number name).result = .ok next) :
    ∃ more, Allocated labels (names ++ more) next := by
  rcases allocate_cases hnext with rfl | ⟨hfresh, hsymbols, hcount⟩
  · exact ⟨[], by rwa [List.append_nil]⟩
  · exact ⟨[name], h.insert hbounded hfresh hsymbols hcount⟩

/-! ## One line -/

theorem exists_of_mem_between (h : next ∈ emission.between line) :
    ∃ symbol, (emission.allocate line.number symbol).result = .ok next := by
  unfold between at h
  split at h
  · rename_i symbol _
    split at h
    · cases h
    · split at h
      · rename_i middle hmiddle
        obtain rfl := List.mem_singleton.mp h
        exact ⟨symbol, hmiddle⟩
      · cases h
  · cases h

theorem push_cases {number : Nat} {command : Command} {bits : Except EncodeFault MachineWord}
    (h : (emission.push number command bits).result = .ok final) :
    (∃ word, bits = .ok word) ∧ final.symbols = emission.symbols ∧
      final.nextVariable = emission.nextVariable := by
  cases bits with
  | ok word =>
    cases h
    exact ⟨⟨word, rfl⟩, rfl, rfl⟩
  | error fault => cases h

/-- What a line comes to that is not refused: it leaves the symbols as they are, or it looks one up
    whose address has 15 bits. -/
theorem addLine_cases (h : (emission.addLine line).result = .ok final) :
    (emission.between line = [] ∧ final.symbols = emission.symbols ∧
      final.nextVariable = emission.nextVariable) ∨
    ∃ symbol next address, emission.between line = [next] ∧
      (emission.allocate line.number symbol).result = .ok next ∧
      next.symbols.get? symbol = some address ∧ address.toNat ≤ 32767 ∧
      final.symbols = next.symbols ∧ final.nextVariable = next.nextVariable := by
  rw [addLine, Report.result_bind_eq_ok_iff] at h
  obtain ⟨command?, hcommand, h⟩ := h
  have hcommand' : line.command? = .ok command? := hcommand
  rw [between, hcommand']
  cases command? with
  | none =>
    cases h
    exact .inl ⟨rfl, rfl, rfl⟩
  | some command =>
    cases command with
    | label name =>
      cases h
      exact .inl ⟨rfl, rfl, rfl⟩
    | compute dest comp jump => exact .inl ⟨rfl, (push_cases h).2⟩
    | address symbol =>
      obtain ⟨⟨value, next⟩, hresolve, hpush⟩ := Report.result_bind_eq_ok_iff.mp h
      obtain ⟨⟨word, hword⟩, hsymbols, hnext⟩ := push_cases hpush
      have hsmall : value ≤ 32767 := by
        by_contra hlarge
        rw [Instruction.load_of_lt (Nat.lt_of_not_le hlarge)] at hword
        cases hword
      rw [resolve] at hresolve
      -- A number has its value without the table; a symbol is looked up, and then it is bound.
      split at hresolve
      · rename_i hdecimal
        obtain ⟨number, -, hnumber⟩ := Report.result_bind_eq_ok_iff.mp hresolve
        cases hnumber
        exact .inl ⟨if_pos hdecimal, hsymbols, hnext⟩
      · rename_i hdecimal
        obtain ⟨middle, hmiddle, haddress⟩ := Report.result_bind_eq_ok_iff.mp hresolve
        obtain ⟨number, haddress, hnumber⟩ := Report.result_bind_eq_ok_iff.mp haddress
        cases hnumber
        have haddress' : next.addressOf line.number symbol = .ok value := haddress
        rw [addressOf] at haddress'
        split at haddress'
        · rename_i address hbound
          cases haddress'
          refine .inr ⟨symbol, next, address, ?_, hmiddle, hbound, hsmall, hsymbols, hnext⟩
          simp [hdecimal, hmiddle]
        · cases haddress'

/-- A line that is not refused leaves room for another variable, since the address of its own has 15
    bits. -/
theorem Allocated.addLine (h : Allocated labels names emission)
    (hbounded : emission.nextVariable ≤ 32768)
    (hfinal : (emission.addLine line).result = .ok final) :
    (∃ more, Allocated labels (names ++ more) final) ∧ final.nextVariable ≤ 32768 := by
  have hsame {state : Emission} {names : List String} (hstate : Allocated labels names state)
      (hsymbols : final.symbols = state.symbols)
      (hnext : final.nextVariable = state.nextVariable) : Allocated labels names final :=
    ⟨hstate.nodup, hsymbols ▸ hstate.mem_iff, hsymbols ▸ hstate.address, hsymbols ▸ hstate.kept,
      hnext ▸ hstate.nextVariable, hnext ▸ hstate.bounded⟩
  rcases addLine_cases hfinal with ⟨-, hsymbols, hnext⟩ |
    ⟨symbol, next, address, -, hallocate, hbound, hsmall, hsymbols, hnext⟩
  · exact ⟨⟨[], by rw [List.append_nil]; exact hsame h hsymbols hnext⟩, by omega⟩
  · obtain ⟨more, hmore⟩ := h.allocate hbounded hallocate
    refine ⟨⟨more, hsame hmore hsymbols hnext⟩, ?_⟩
    rcases allocate_cases hallocate with rfl | ⟨-, hinsert, hcount⟩
    · omega
    · -- The new variable is the symbol of the line, so its address is small.
      rw [hinsert, SymbolTable.get?_insert, if_pos rfl] at hbound
      obtain rfl := Option.some.inj hbound
      rw [BitVec.toNat_ofNat, Nat.mod_eq_of_lt (by omega)] at hsmall
      omega

theorem isKeptBy_of_mem_between (h : next ∈ emission.between line) :
    emission.symbols.IsKeptBy next.symbols := by
  obtain ⟨symbol, hallocate⟩ := exists_of_mem_between h
  exact isKeptBy_of_allocate hallocate

/-- A line that is not refused keeps the names from before it and from its middle. -/
theorem isKeptBy_of_addLine (h : (emission.addLine line).result = .ok final) :
    emission.symbols.IsKeptBy final.symbols ∧
      ∀ next ∈ emission.between line, next.symbols.IsKeptBy final.symbols := by
  rcases addLine_cases h with ⟨hbetween, hsymbols, -⟩ |
    ⟨symbol, next, address, hbetween, hallocate, -, -, hsymbols, -⟩
  · rw [hbetween, hsymbols]
    exact ⟨.refl _, by simp⟩
  · rw [hbetween, hsymbols]
    refine ⟨isKeptBy_of_allocate hallocate, fun middle hmiddle => ?_⟩
    rw [List.mem_singleton.mp hmiddle]
    exact .refl _

/-! ## All lines -/

/-- Every state has the addresses of the variables up to it, and room for them. -/
theorem Allocated.states (h : Allocated labels names emission)
    (hbounded : emission.nextVariable ≤ 32768) (lines : List Line) : ∀ state ∈ emission.states lines,
      ∃ more, Allocated labels (names ++ more) state := by
  -- Each line begins with room for a variable, which is what the one after it needs.
  induction lines generalizing emission names with
  | nil =>
    intro state hstate
    rw [Emission.states, List.mem_singleton] at hstate
    exact ⟨[], by rw [hstate, List.append_nil]; exact h⟩
  | cons line lines ih =>
    intro state hstate
    rw [Emission.states, List.mem_cons, List.mem_append] at hstate
    rcases hstate with rfl | hstate | hstate
    · exact ⟨[], by rwa [List.append_nil]⟩
    · obtain ⟨symbol, hallocate⟩ := exists_of_mem_between hstate
      exact h.allocate hbounded hallocate
    · cases hline : (emission.addLine line).result with
      | error error =>
        rw [hline] at hstate
        cases hstate
      | ok final =>
        rw [hline] at hstate
        obtain ⟨⟨more, hmore⟩, hnext⟩ := h.addLine hbounded hline
        obtain ⟨others, hothers⟩ := ih hmore hnext state hstate
        exact ⟨more ++ others, by rwa [← List.append_assoc]⟩

/-- What the middle of a line keeps for a table holds in every state. -/
theorem forall_mem_states {P : SymbolTable → Prop}
    (hbetween : ∀ {state middle : Emission} {line : Line}, P state.symbols →
      middle ∈ state.between line → P middle.symbols)
    (h : P emission.symbols) (lines : List Line) : ∀ state ∈ emission.states lines, P state.symbols := by
  induction lines generalizing emission with
  | nil =>
    intro state hstate
    rw [states, List.mem_singleton] at hstate
    rwa [hstate]
  | cons line lines ih =>
    intro state hstate
    rw [states, List.mem_cons, List.mem_append] at hstate
    rcases hstate with rfl | hstate | hstate
    · exact h
    · exact hbetween h hstate
    · cases hline : (emission.addLine line).result with
      | error error =>
        rw [hline] at hstate
        cases hstate
      | ok final =>
        rw [hline] at hstate
        refine ih ?_ state hstate
        -- A line leaves the table as it was before it or in its middle.
        rcases addLine_cases hline with ⟨-, hsymbols, -⟩ |
          ⟨symbol, next, address, hmiddle, -, -, -, hsymbols, -⟩
        · rwa [hsymbols]
        · rw [hsymbols]
          exact hbetween h (by rw [hmiddle]; exact List.mem_singleton_self next)

theorem isKeptBy_of_mem_states (emission : Emission) (lines : List Line) :
    ∀ state ∈ emission.states lines, emission.symbols.IsKeptBy state.symbols :=
  forall_mem_states (fun hkept hmiddle => hkept.trans (isKeptBy_of_mem_between hmiddle))
    (.refl _) lines

/-- No state loses or changes an address of one before it. -/
theorem pairwise_states (emission : Emission) (lines : List Line) :
    (emission.states lines).Pairwise fun state later =>
      state.symbols.IsKeptBy later.symbols := by
  induction lines generalizing emission with
  | nil => exact List.pairwise_singleton _ _
  | cons line lines ih =>
    have hfirst := isKeptBy_of_mem_states emission (line :: lines)
    rw [states, List.forall_mem_cons] at hfirst
    rw [states, List.pairwise_cons, List.pairwise_append]
    refine ⟨hfirst.2, ?_, ?_, ?_⟩
    · -- There is at most one state in the middle of a line.
      unfold between
      split
      · split
        · exact .nil
        · split
          · exact List.pairwise_singleton _ _
          · exact .nil
      · exact .nil
    · cases hline : (emission.addLine line).result with
      | error error => exact .nil
      | ok final => exact ih final
    · intro next hnext state hstate
      cases hline : (emission.addLine line).result with
      | error error =>
        rw [hline] at hstate
        cases hstate
      | ok final =>
        rw [hline] at hstate
        exact ((isKeptBy_of_addLine hline).2 next hnext).trans
          (isKeptBy_of_mem_states final lines state hstate)

/-- The last state of a run that is not refused is the one that it comes to. -/
theorem getLast?_states (h : (Report.fold addLine emission lines).result = .ok final) :
    (emission.states lines).getLast? = some final := by
  induction lines generalizing emission with
  | nil =>
    cases h
    rfl
  | cons line lines ih =>
    rw [Report.fold_cons, Report.result_bind_eq_ok_iff] at h
    obtain ⟨next, hnext, hrest⟩ := h
    rw [states, hnext, ← List.singleton_append, ← List.append_assoc, List.getLast?_append, ih hrest]
    rfl

end Emission

end HackAssembler
