/-
  HackAssembler.Listing

  Listings of a program for readers: its words beside their commands, and its symbols beside their
  addresses. A listing is a grid: the cells of a column begin at the same place, and an empty line
  follows the last row.
-/
import HackAssembler.Program

namespace HackAssembler.Listing

/-! ## Grids -/

/-- The width of the widest cell in each column. -/
def columnWidths : List (List String) → List Nat
  | [] => []
  | row :: rows =>
    rows.foldl (fun widths row => List.zipWith max widths (row.map String.length))
      (row.map String.length)

/-- A row whose cells are filled up with blanks to their widths and `gap` blanks more. The last
    cell is not filled up. -/
def renderRow (gap : Nat) : List Nat → List String → String
  | _, [] => ""
  | _, [cell] => cell
  | [], cell :: cells => cell ++ renderRow gap [] cells
  | width :: widths, cell :: cells =>
    cell.pushn ' ' (width + gap - cell.length) ++ renderRow gap widths cells

/-- A grid with one row a line, and an empty line after it. -/
def renderGrid (gap : Nat) (rows : List (List String)) : String :=
  let widths := columnWidths rows
  String.join (rows.map fun row => (renderRow gap widths row).push '\n') ++ "\n"

/-! ## Listings -/

/-- A number in hexadecimal, with capital letters and at least four digits. -/
def hexadecimal (value : Nat) : String :=
  String.ofList (((Nat.toDigits 16 value).map Char.toUpper).leftpad 4 '0')

/-- The row of a word: its address, its command, and its digits. -/
def wordRow (word : Word) : List String :=
  [s!"0x{hexadecimal word.address}:", word.command.text, "=>", word.bitText]

/-- The row of a symbol: its name and its address. -/
def symbolRow (entry : String × Address) : List String :=
  [entry.1, toString entry.2.toNat]

/-- The words of a program by their addresses. -/
def ofWords (program : Program) : String :=
  renderGrid 1 (program.words.map wordRow)

/-- The symbols of a program by their addresses. -/
def ofSymbols (program : Program) : String :=
  renderGrid 2 (program.symbols.sorted.map symbolRow)

end HackAssembler.Listing
