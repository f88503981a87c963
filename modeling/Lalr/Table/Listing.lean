import Lalr.Table

/-!
# Listings of tables

A listing has a block for each state that has actions: a heading, then one line for each cell with the
symbol set flush right in a column.
-/

namespace Lalr

/-- Fills a text up on the left with blanks to a number of characters. -/
def alignRight (width : Nat) (s : String) : String :=
  "".pushn ' ' (width - s.length) ++ s

namespace Table

/-- The line of one cell. -/
def cellLine (name : Naming) (symbol : Symbol) (action : Action) : String :=
  alignRight 30 (name symbol) ++ " " ++ action.text ++ "\n"

/-- The heading of a state. -/
def stateLine (state : Nat) : String :=
  s!"State {state}:\n"

/-- The lines of cells in ascending order, where `last` is the state of the cell before them. -/
def lines (name : Naming) : Option Nat → List (Cell × Action) → List String
  | _, [] => []
  | last, (cell, action) :: rest =>
    let heading :=
      if last = some cell.state then []
      else if last = none then [stateLine cell.state]
      else ["\n", stateLine cell.state]
    heading ++ cellLine name cell.symbol action :: lines name (some cell.state) rest

/-- The listing of a table under a naming of the symbols. -/
def listing (t : Table) (name : Naming) : String :=
  String.join (lines name none t.cells.toList)

end Table

end Lalr
