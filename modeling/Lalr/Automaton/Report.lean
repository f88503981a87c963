import Lalr.Automaton
import Lalr.Table.Listing

/-!
# Reports on automata

A report lists, state by state, the items with their lookaheads and the actions of the table.  Complete items
carry the number of their rule.
-/

namespace Lalr

/-- An automaton with its table, to be written out. -/
structure Report where
  /-- The grammar. -/
  grammar : Augmented
  /-- The closed automaton. -/
  automaton : Automaton
  /-- The table read from it. -/
  table : Table

namespace Report

/-- The initial symbol is written as such, all others by number. -/
def name (r : Report) : Naming := fun s =>
  if s = r.grammar.init then "(init)" else s.text

/-- The line of one item. -/
def itemLine (r : Report) (i : Item) : String :=
  match r.grammar.rules[i.core.rule]? with
  | none => "\n"
  | some rule =>
    let margin :=
      if rule.rhs.length ≤ i.core.dot then "    " ++ alignRight 5 s!"({i.core.rule})" ++ " "
      else "          "
    margin ++ i.textOf rule r.name ++ "\n"

/-- The block of one state. -/
def stateBlock (r : Report) (n : Nat) (s : ItemSet) : String :=
  let rows := (r.table.row n).map fun (x, action) => Table.cellLine r.name x action
  Table.stateLine n ++ String.join (s.items.map r.itemLine) ++ "\n" ++ String.join rows ++ "\n"

/-- The whole report. -/
def text (r : Report) : String :=
  String.join (r.automaton.states.mapIdx r.stateBlock).toList

end Report

end Lalr
