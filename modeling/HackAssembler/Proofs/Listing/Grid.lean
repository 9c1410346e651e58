/-
  HackAssembler.Proofs.Listing.Grid

  Grids that are read again. Each column is as wide as the widest of its cells, so the cells of a
  row are followed by blanks up to the next column: `Renders` says so of one row, cell by cell. The
  fields of the row are then its cells, and its last cell begins where that of every other row
  begins (`exists_lines_renderGrid`).
-/
import HackAssembler.Listing
import HackAssembler.Proofs.Line
import HackAssembler.Proofs.Text.Fields

namespace HackAssembler.Listing

open Text (IsField)

/-! ## Widths -/

/-- The cells of a row are not wider than their columns. -/
def Fits (widths : List Nat) (row : List String) : Prop :=
  List.Forall₂ (fun width cell => cell.length ≤ width) widths row

/-- The widths that are needed for another row. -/
def widen (widths : List Nat) (row : List String) : List Nat :=
  List.zipWith max widths (row.map String.length)

theorem length_widen {widths : List Nat} {row : List String} (h : row.length = widths.length) :
    (widen widths row).length = widths.length := by
  simp [widen, h]

theorem Fits.widen {widths : List Nat} {row : List String} (h : Fits widths row)
    {next : List String} (hlength : next.length = widths.length) :
    Fits (widen widths next) row := by
  induction h generalizing next with
  | nil => exact .nil
  | @cons width cell widths row hcell _ ih =>
    cases next with
    | nil => cases hlength
    | cons other next =>
      exact .cons (Nat.le_trans hcell (Nat.le_max_left ..)) (ih (Nat.succ.inj hlength))

theorem fits_widen {widths : List Nat} {row : List String} (h : row.length = widths.length) :
    Fits (widen widths row) row := by
  induction widths generalizing row with
  | nil =>
    obtain rfl := List.length_eq_zero_iff.mp h
    exact .nil
  | cons width widths ih =>
    cases row with
    | nil => cases h
    | cons cell row => exact .cons (Nat.le_max_right ..) (ih (Nat.succ.inj h))

/-- What fits at first goes on to fit, and each of the rows fits in the end. -/
theorem fits_foldl_widen {rows : List (List String)} {widths : List Nat}
    (h : ∀ row ∈ rows, row.length = widths.length) :
    (∀ row, Fits widths row → Fits (rows.foldl widen widths) row) ∧
      ∀ row ∈ rows, Fits (rows.foldl widen widths) row := by
  -- The widths only grow from row to row, so what fits once fits in the end.
  induction rows generalizing widths with
  | nil => exact ⟨fun _ hrow => hrow, by simp⟩
  | cons next rows ih =>
    rw [List.forall_mem_cons] at h
    obtain ⟨hnext, hrows⟩ := h
    obtain ⟨hkeep, hfit⟩ := ih fun row hrow =>
      (hrows row hrow).trans (length_widen hnext).symm
    refine ⟨fun row hrow => hkeep row (hrow.widen hnext), ?_⟩
    rw [List.forall_mem_cons]
    exact ⟨hkeep next (fits_widen hnext), hfit⟩

/-- Rows of the same length fit the widths of their columns. -/
theorem fits_columnWidths {rows : List (List String)} {count : Nat}
    (h : ∀ row ∈ rows, row.length = count) : ∀ row ∈ rows, Fits (columnWidths rows) row := by
  cases rows with
  | nil => simp
  | cons first rows =>
    rw [List.forall_mem_cons] at h
    obtain ⟨rfl, hrows⟩ := h
    have hfirst : Fits (first.map String.length) first := by
      rw [Fits, List.forall₂_map_left_iff, List.forall₂_same]
      exact fun _ _ => Nat.le_refl _
    have hlengths : ∀ row ∈ rows, row.length = (first.map String.length).length := by
      intro row hrow
      rw [hrows row hrow, List.length_map]
    obtain ⟨hkeep, hfit⟩ := fits_foldl_widen hlengths
    rw [List.forall_mem_cons]
    exact ⟨hkeep first hfirst, hfit⟩

/-! ## Rows -/

/-- The text of a row: each cell but the last is followed by blanks, `gap` of them at least, up to
    where the next column begins. -/
inductive Renders (gap : Nat) : List Nat → List String → List Char → Prop where
  | last (width : Nat) (cell : String) : Renders gap [width] [cell] cell.toList
  | cons {width blanks : Nat} {cell : String} {widths : List Nat} {row : List String}
      {text : List Char} (full : cell.length + blanks = width + gap) (apart : gap ≤ blanks)
      (rest : Renders gap widths row text) :
      Renders gap (width :: widths) (cell :: row)
        (cell.toList ++ (List.replicate blanks ' ' ++ text))

theorem toList_pushn (text : String) (c : Char) (count : Nat) :
    (text.pushn c count).toList = text.toList ++ List.replicate count c := by
  rw [String.pushn_eq_repeat_push]
  induction count with
  | zero => simp [Nat.repeat]
  | succ count ih =>
    rw [Nat.repeat, String.toList_push, ih, List.append_assoc, List.replicate_succ']

theorem renders_renderRow (gap : Nat) {widths : List Nat} {row : List String}
    (hfits : Fits widths row) (hne : row ≠ []) :
    Renders gap widths row (renderRow gap widths row).toList := by
  induction hfits with
  | nil => exact absurd rfl hne
  | @cons width cell widths row hcell _ ih =>
    -- Whether the cell is filled up depends on whether it is the last.
    cases row with
    | nil =>
      cases widths with
      | nil => exact .last width cell
      | cons next widths => contradiction
    | cons next row =>
      have hrow : (renderRow gap (width :: widths) (cell :: next :: row)).toList =
          cell.toList ++ (List.replicate (width + gap - cell.length) ' ' ++
            (renderRow gap widths (next :: row)).toList) := by
        rw [renderRow, String.toList_append, toList_pushn, List.append_assoc]
        simp
      rw [hrow]
      exact .cons (by omega) (by omega) (ih (List.cons_ne_nil _ _))

/-- The column where the last cell of a row begins. -/
def lastColumn (gap : Nat) : List Nat → Nat
  | [] => 0
  | [_] => 0
  | width :: widths => width + gap + lastColumn gap widths

namespace Renders

variable {gap : Nat} {widths : List Nat} {row : List String} {text : List Char}

theorem ne_nil (h : Renders gap widths row text) : widths ≠ [] ∧ row ≠ [] := by
  cases h <;> simp

/-- The fields of a row are its cells. -/
theorem fields_eq (h : Renders gap widths row text) (hgap : 0 < gap)
    (hcells : ∀ cell ∈ row, IsField cell.toList) : Text.fields text = row.map String.toList := by
  induction h with
  | last width cell => exact (hcells cell (by simp)).fields_eq
  | @cons width blanks cell widths row text full apart _ ih =>
    rw [List.forall_mem_cons] at hcells
    obtain ⟨more, rfl⟩ : ∃ more, blanks = more + 1 := ⟨blanks - 1, by omega⟩
    rw [List.replicate_succ, List.cons_append, Text.fields_append_blank _ _ (by decide),
      hcells.1.fields_eq, Text.fields_replicate_append, ih hcells.2]
    rfl

/-- A row has no characters but those of its cells and the blanks between them. -/
theorem visible (h : Renders gap widths row text) (hcells : ∀ cell ∈ row, IsField cell.toList) :
    ∀ c ∈ text, c = ' ' ∨ Text.isVisible c = true := by
  induction h with
  | last width cell => exact fun c hc => .inr ((hcells cell (by simp)).visible c hc)
  | cons full apart _ ih =>
    rw [List.forall_mem_cons] at hcells
    intro c hc
    rw [List.mem_append, List.mem_append] at hc
    rcases hc with hc | hc | hc
    · exact .inr (hcells.1.visible c hc)
    · exact .inl (List.mem_replicate.mp hc).2
    · exact ih hcells.2 c hc

/-- The last cell begins in a column that depends on the widths alone. -/
theorem exists_eq_append (h : Renders gap widths row text) {last : String}
    (hlast : row.getLast? = some last) :
    ∃ before, text = before ++ last.toList ∧ before.length = lastColumn gap widths := by
  induction h with
  | last width cell =>
    obtain rfl := Option.some.inj hlast
    exact ⟨[], rfl, rfl⟩
  | @cons width blanks cell widths row text full apart rest ih =>
    obtain ⟨hwidths, hrow⟩ := rest.ne_nil
    obtain ⟨next, row, rfl⟩ := List.exists_cons_of_ne_nil hrow
    obtain ⟨nextWidth, widths, rfl⟩ := List.exists_cons_of_ne_nil hwidths
    rw [List.getLast?_cons_cons] at hlast
    obtain ⟨before, rfl, hlength⟩ := ih hlast
    -- Cell and blanks take the width and the gap together, however long the cell is.
    have hcolumn : lastColumn gap (width :: nextWidth :: widths) =
        width + gap + lastColumn gap (nextWidth :: widths) := rfl
    refine ⟨cell.toList ++ (List.replicate blanks ' ' ++ before), by simp, ?_⟩
    rw [List.length_append, List.length_append, List.length_replicate, String.length_toList,
      hlength, hcolumn]
    omega

end Renders

/-! ## Grids -/

/-- A line of a grid with its cells: they are its fields, it has nothing else but blanks, and the
    last of them begins in a given column. -/
structure ShowsRow (column : Nat) (row : List String) (line : List Char) : Prop where
  fields : Text.fields line = row.map String.toList
  visible : ∀ c ∈ line, c = ' ' ∨ Text.isVisible c = true
  last : ∀ cell, row.getLast? = some cell →
    ∃ before, line = before ++ cell.toList ∧ before.length = column

/-- The lines of a grid are its rows, and behind them there is an empty one. -/
theorem splitOnP_renderGrid {gap : Nat} {rows : List (List String)}
    (h : ∀ row ∈ rows, '\n' ∉ (renderRow gap (columnWidths rows) row).toList) :
    (renderGrid gap rows).toList.splitOnP (· == '\n') =
      rows.map (fun row => (renderRow gap (columnWidths rows) row).toList) ++ [[], []] := by
  have hgrid : (renderGrid gap rows).toList =
      (rows.map (fun row => (renderRow gap (columnWidths rows) row).toList) ++ [[]]).flatMap
        fun line => line ++ ['\n'] := by
    rw [renderGrid, String.toList_append, String.toList_join, List.flatMap_append, List.flatMap_map,
      List.flatMap_map]
    simp
  rw [hgrid, Line.splitOnP_flatMap_lines, List.append_assoc]
  · rfl
  · intro line hline
    rw [List.mem_append, List.mem_map, List.mem_singleton] at hline
    rcases hline with ⟨row, hrow, rfl⟩ | rfl
    · exact h row hrow
    · exact List.not_mem_nil

variable {α : Type}

/-- A grid has a line for each item, if all rows have the same length, and the last cells begin in
    the same column. -/
theorem exists_lines_renderGrid {gap : Nat} (hgap : 0 < gap) (count : Nat) (row : α → List String)
    (hlength : ∀ item, (row item).length = count + 1) {items : List α}
    (hcells : ∀ item ∈ items, ∀ cell ∈ row item, IsField cell.toList) :
    ∃ column lines,
      (renderGrid gap (items.map row)).toList.splitOnP (· == '\n') = lines ++ [[], []] ∧
      List.Forall₂ (fun item line => item ∈ items ∧ ShowsRow column (row item) line)
        items lines := by
  have hfits : ∀ item ∈ items, Fits (columnWidths (items.map row)) (row item) := by
    rw [← List.forall_mem_map]
    apply fits_columnWidths
    rw [List.forall_mem_map]
    exact fun item _ => hlength item
  have hrenders : ∀ item ∈ items, Renders gap (columnWidths (items.map row)) (row item)
      (renderRow gap (columnWidths (items.map row)) (row item)).toList := by
    intro item hitem
    refine renders_renderRow gap (hfits item hitem) ?_
    exact List.ne_nil_of_length_eq_add_one (hlength item)
  have hlines : ∀ cells ∈ items.map row,
      '\n' ∉ (renderRow gap (columnWidths (items.map row)) cells).toList := by
    rw [List.forall_mem_map]
    intro item hitem hnewline
    have hvisible := (hrenders item hitem).visible (hcells item hitem) '\n' hnewline
    exact absurd hvisible (by decide)
  refine ⟨lastColumn gap (columnWidths (items.map row)), _, splitOnP_renderGrid hlines, ?_⟩
  rw [List.map_map, List.forall₂_map_right_iff, List.forall₂_same]
  intro item hitem
  exact ⟨hitem, {
    fields := (hrenders item hitem).fields_eq hgap (hcells item hitem)
    visible := (hrenders item hitem).visible (hcells item hitem)
    last := fun _ hlast => (hrenders item hitem).exists_eq_append hlast }⟩

end HackAssembler.Listing
