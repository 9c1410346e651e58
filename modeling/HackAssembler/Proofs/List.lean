/-
  HackAssembler.Proofs.List

  Lists in pieces, lists side by side, and lists in which each entry is kept once. The lines of a
  source are the pieces between its line feeds, and the names in a path those between its slashes.
  The lines of a source stand at the side of its statements, and the instructions at the side of the
  words; the variables of a program are the names that it uses, each kept once.
-/
import Mathlib.Data.List.Forall2
import Mathlib.Data.List.Induction
import Mathlib.Data.List.Nodup

namespace HackAssembler

variable {α β γ : Type}

/-! ## Pieces of a list -/

theorem length_splitOnP (p : α → Bool) (items : List α) :
    (items.splitOnP p).length = items.countP p + 1 := by
  induction items with
  | nil => rfl
  | cons first items ih =>
    rw [List.splitOnP_cons_eq_if_modifyHead, List.countP_cons]
    split <;> simp [ih]

/-- A piece is what stands between two separators, or between one and an end of the list. Its place
    is the number of separators before it. -/
structure IsPieceBehind (p : α → Bool) (items before piece : List α) : Prop where
  boundary : ∀ item ∈ before.getLast?, p item = true
  holdsNone : ∀ item ∈ piece, p item = false
  split : ∃ after, items = before ++ (piece ++ after) ∧ ∀ item ∈ after.head?, p item = true

/-- A list holds no separator, or it has a first one. -/
theorem forall_or_exists_first (p : α → Bool) (items : List α) :
    (∀ item ∈ items, p item = false) ∨
      ∃ front sep rest, items = front ++ sep :: rest ∧ (∀ item ∈ front, p item = false) ∧
        p sep = true := by
  by_cases hsep : ∃ sep ∈ items, p sep = true
  · obtain ⟨sep, hmem, hsep⟩ := hsep
    obtain ⟨first, front, rest, hfront, hfirst, hitems, -⟩ := List.exists_of_eraseP hmem hsep
    exact .inr ⟨front, first, rest, hitems, fun item hitem => by simpa using hfront item hitem,
      hfirst⟩
  · exact .inl (by simpa using hsep)

theorem exists_isPieceBehind {p : α → Bool} {items piece : List α} {index : Nat}
    (h : (items.splitOnP p)[index]? = some piece) :
    ∃ before, IsPieceBehind p items before piece ∧ before.countP p = index := by
  -- Each piece but the last is closed by the first separator that is left.
  induction index generalizing items with
  | zero =>
    rcases forall_or_exists_first p items with hfree | ⟨front, sep, rest, rfl, hfront, hsep⟩
    · rw [List.splitOnP_eq_singleton hfree, List.getElem?_cons_zero] at h
      obtain rfl := Option.some.inj h
      exact ⟨[], ⟨by simp, hfree, [], by simp, by simp⟩, rfl⟩
    · rw [List.splitOnP_append_cons_of_forall_mem hfront sep hsep, List.getElem?_cons_zero] at h
      obtain rfl := Option.some.inj h
      exact ⟨[], ⟨by simp, hfront, sep :: rest, rfl, by simpa using hsep⟩, rfl⟩
  | succ index ih =>
    rcases forall_or_exists_first p items with hfree | ⟨front, sep, rest, rfl, hfront, hsep⟩
    · rw [List.splitOnP_eq_singleton hfree] at h
      cases h
    · rw [List.splitOnP_append_cons_of_forall_mem hfront sep hsep, List.getElem?_cons_succ] at h
      obtain ⟨before, ⟨hboundary, hnone, after, rfl, hafter⟩, hcount⟩ := ih h
      refine ⟨front ++ sep :: before, ⟨?_, hnone, after, by simp, hafter⟩, ?_⟩
      · rw [List.getLast?_append_cons, List.getLast?_cons]
        cases hlast : before.getLast? with
        | none => simpa using hsep
        | some last => simpa using hboundary last (by simp [hlast])
      · have hzero : front.countP p = 0 := List.countP_eq_zero.mpr (by simpa using hfront)
        rw [List.countP_append, hzero, List.countP_cons, hcount, if_pos hsep, Nat.zero_add]

theorem IsPieceBehind.getElem?_splitOnP {p : α → Bool} {items before piece : List α}
    (h : IsPieceBehind p items before piece) :
    (items.splitOnP p)[before.countP p]? = some piece := by
  obtain ⟨hboundary, hnone, after, rfl, hafter⟩ := h
  have hfirst : (((piece ++ after).splitOnP p)[0]?) = some piece := by
    cases after with
    | nil => rw [List.append_nil, List.splitOnP_eq_singleton hnone, List.getElem?_cons_zero]
    | cons sep after =>
      rw [List.splitOnP_append_cons_of_forall_mem hnone sep (hafter sep rfl),
        List.getElem?_cons_zero]
  rcases List.eq_nil_or_concat before with rfl | ⟨initial, sep, rfl⟩
  · exact hfirst
  · have hsep : p sep = true := hboundary sep (by simp)
    rw [List.concat_eq_append, List.append_assoc, List.singleton_append,
      List.splitOnP_append_cons _ _ hsep, List.countP_append, List.countP_singleton, if_pos hsep,
      ← length_splitOnP, List.getElem?_append_right (Nat.le_refl _), Nat.sub_self, hfirst]

/-- The pieces between the separators hold no separator. -/
theorem eq_false_of_mem_splitOnP {p : α → Bool} {items piece : List α}
    (hpiece : piece ∈ items.splitOnP p) : ∀ item ∈ piece, p item = false := by
  obtain ⟨index, hindex⟩ := List.mem_iff_getElem?.mp hpiece
  obtain ⟨before, hbehind, -⟩ := exists_isPieceBehind hindex
  exact hbehind.holdsNone

/-! ## Lists side by side -/

section SideBySide

variable {R : α → β → Prop}

/-- Of two lists side by side, every entry of the second has one of the first at its side. -/
theorem exists_of_forall₂_of_mem {as : List α} {bs : List β}
    (h : List.Forall₂ R as bs) {b : β} (hmem : b ∈ bs) : ∃ a ∈ as, R a b := by
  induction h with
  | nil => cases hmem
  | @cons a first as bs hfirst _ ih =>
    rcases List.mem_cons.mp hmem with rfl | hmem
    · exact ⟨a, by simp, hfirst⟩
    · obtain ⟨other, hother, hR⟩ := ih hmem
      exact ⟨other, List.mem_cons_of_mem _ hother, hR⟩

/-- What stands at the side of two lists, one behind the other, is cut in two like them. -/
theorem exists_append_of_forall₂ {as more : List α} {cs : List β}
    (h : List.Forall₂ R (as ++ more) cs) :
    ∃ bs others, cs = bs ++ others ∧ List.Forall₂ R as bs ∧ List.Forall₂ R more others := by
  induction as generalizing cs with
  | nil => exact ⟨[], cs, rfl, .nil, h⟩
  | cons a as ih =>
    cases h with
    | @cons _ c _ cs hfirst hrest =>
      obtain ⟨bs, others, rfl, has, hmore⟩ := ih hrest
      exact ⟨c :: bs, others, rfl, .cons hfirst has, hmore⟩

/-- What stands at the side of an entry has the sides of the entries before and behind it around
    it. -/
theorem exists_split_of_forall₂ {before after : List α} {a : α} {bs : List β}
    (h : List.Forall₂ R (before ++ a :: after) bs) :
    ∃ earlier b later, bs = earlier ++ b :: later ∧ List.Forall₂ R before earlier ∧ R a b ∧
      List.Forall₂ R after later := by
  obtain ⟨earlier, others, rfl, hbefore, hothers⟩ := exists_append_of_forall₂ h
  cases hothers with
  | @cons _ b _ later hentry hafter => exact ⟨earlier, b, later, rfl, hbefore, hentry, hafter⟩

/-- Three lists side by side: what holds of the neighbours gives a relation of the outer two. -/
theorem forall₂_comp {S : β → γ → Prop} {as : List α} {bs : List β} {cs : List γ}
    (h : List.Forall₂ R as bs) (h' : List.Forall₂ S bs cs) :
    List.Forall₂ (fun a c => ∃ b, R a b ∧ S b c) as cs := by
  induction h generalizing cs with
  | nil =>
    cases h'
    exact .nil
  | cons hfirst _ ih =>
    cases h' with
    | cons hfirst' hrest' => exact .cons ⟨_, hfirst, hfirst'⟩ (ih hrest')

end SideBySide

/-! ## Entries that are kept once -/

variable [DecidableEq α]

/-- The last entry of a list is kept if it is none of those before it. -/
theorem eraseDups_append_singleton (items : List α) (item : α) :
    (items ++ [item]).eraseDups =
      if item ∈ items then items.eraseDups else items.eraseDups ++ [item] := by
  rw [List.eraseDups_append, List.removeAll, List.filter_singleton, List.elem_eq_mem]
  by_cases hitem : item ∈ items
  · simp [hitem]
  · simp [hitem, List.eraseDups_cons]

theorem nodup_eraseDups (items : List α) : items.eraseDups.Nodup := by
  induction items using List.reverseRecOn with
  | nil => simp
  | append_singleton items item ih =>
    rw [eraseDups_append_singleton]
    split
    · exact ih
    · rename_i hitem
      rw [← List.mem_eraseDups] at hitem
      rw [List.nodup_append]
      simpa [ih] using fun other hother => ne_of_mem_of_not_mem hother hitem

theorem eraseDups_of_nodup {items : List α} (h : items.Nodup) :
    items.eraseDups = items := by
  induction items using List.reverseRecOn with
  | nil => rfl
  | append_singleton items item ih =>
    rw [List.nodup_append] at h
    have hnew : item ∉ items := fun hitem => h.2.2 item hitem item (by simp) rfl
    rw [eraseDups_append_singleton, if_neg hnew, ih h.1]

/-! ## Entries that are changed -/

variable [DecidableEq β] {f : α → β}

/-- Different entries that stay different have the same places. -/
theorem idxOf_map {items : List α} {item : α} (h : ∀ other ∈ items, f other = f item → other = item) :
    (items.map f).idxOf (f item) = items.idxOf item := by
  induction items with
  | nil => rfl
  | cons first items ih =>
    rw [List.forall_mem_cons] at h
    rw [List.map_cons, List.idxOf_cons, List.idxOf_cons, ih h.2]
    by_cases hfirst : first = item
    · rw [hfirst, beq_self_eq_true, beq_self_eq_true]
    · rw [beq_eq_false_iff_ne.mpr hfirst, beq_eq_false_iff_ne.mpr fun heq => hfirst (h.1 heq)]

/-- Entries that occur again are the same ones after a change that keeps different entries
    different. -/
theorem eraseDups_map {items : List α}
    (h : ∀ item ∈ items, ∀ other ∈ items, f item = f other → item = other) :
    (items.map f).eraseDups = items.eraseDups.map f := by
  -- From the end, since an entry is kept if it is none of those before it.
  induction items using List.reverseRecOn with
  | nil => rfl
  | append_singleton items item ih =>
    have hitems := ih fun item hitem other hother =>
      h item (List.mem_append_left _ hitem) other (List.mem_append_left _ hother)
    have hmem : f item ∈ items.map f ↔ item ∈ items := by
      constructor
      · intro hmem
        obtain ⟨other, hother, heq⟩ := List.mem_map.mp hmem
        obtain rfl := h other (List.mem_append_left _ hother) item (by simp) heq
        exact hother
      · exact List.mem_map_of_mem
    rw [List.map_append, List.map_singleton, eraseDups_append_singleton,
      eraseDups_append_singleton, hitems]
    by_cases hold : item ∈ items
    · rw [if_pos hold, if_pos (hmem.mpr hold)]
    · rw [if_neg hold, if_neg (mt hmem.mp hold), List.map_append, List.map_singleton]

end HackAssembler
