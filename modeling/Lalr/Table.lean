import Lalr.Defect
import Lalr.Table.Action

/-!
# Parsing tables

A table assigns actions to cells, a cell being a state together with a symbol, and lists the rules that its
reductions refer to by position.  Tables are compared by content.
-/

namespace Lalr

/-- The coordinates of an action: a state and the symbol that it meets. -/
structure Cell where
  /-- The number of the state. -/
  state : Nat
  /-- The symbol. -/
  symbol : Symbol
deriving BEq, ReflBEq, LawfulBEq

instance : DecidableEq Cell := instDecidableEqOfLawfulBEq

namespace Cell

/-- Cells are ordered by state, then by symbol. -/
instance : Ord Cell := ⟨compareLex (compareOn Cell.state) (compareOn Cell.symbol)⟩

instance : Std.TransOrd Cell :=
  inferInstanceAs (Std.TransCmp (compareLex (compareOn Cell.state) (compareOn Cell.symbol)))

instance : Std.LawfulEqOrd Cell where
  compare_self {a} :=
    compareLex_eq_eq.2 ⟨Std.ReflOrd.compare_self (a := a.state), Std.ReflOrd.compare_self (a := a.symbol)⟩
  eq_of_compare {a b} h := by
    obtain ⟨hstate, hsymbol⟩ := compareLex_eq_eq.1 h
    have hs : a.state = b.state := Std.LawfulEqOrd.eq_of_compare hstate
    have hx : a.symbol = b.symbol := Std.LawfulEqOrd.eq_of_compare hsymbol
    cases a
    cases b
    exact congr (congrArg Cell.mk hs) hx

end Cell

/-- A parsing table. -/
structure Table where
  /-- The state in which a parse begins. -/
  start : Nat
  /-- The actions; a cell without one is an error for the parser. -/
  cells : Std.ExtTreeMap Cell Action
  /-- The rules by position. -/
  rules : Array Rule
deriving BEq, ReflBEq, LawfulBEq

instance : DecidableEq Table := instDecidableEqOfLawfulBEq

namespace Table

/-- The table with the given actions; of two actions for a cell the last one counts. -/
def ofList (start : Nat) (actions : List (Cell × Action)) (rules : Array Rule) : Table :=
  { start, cells := Std.ExtTreeMap.ofList actions, rules }

/-- The action of a cell. -/
def action? (t : Table) (state : Nat) (symbol : Symbol) : Option Action :=
  t.cells[(⟨state, symbol⟩ : Cell)]?

/-- The actions of one state, in ascending order of the symbols. -/
def row (t : Table) (state : Nat) : List (Symbol × Action) :=
  (t.cells.toList.filter fun entry => entry.1.state == state).map fun entry =>
    (entry.1.symbol, entry.2)

/-- One more than the largest state that has a cell or is the start. -/
def stateCount (t : Table) : Nat :=
  t.cells.toList.foldl (fun count entry => max count (entry.1.state + 1)) (t.start + 1)

/-- The cells in which several rules compete. -/
def conflicts (t : Table) : List (Cell × RuleSet) :=
  t.cells.toList.filterMap fun (cell, action) =>
    match action with
    | .reduceMulti rules => some (cell, rules)
    | _ => none

/-- Fails with all the conflicts of a table that a deterministic parser cannot run. -/
def checkDeterministic (t : Table) : Except GrammarError Unit :=
  GrammarError.check (t.conflicts.map fun (cell, rules) =>
    .reduceConflict cell.state cell.symbol rules.toList)

end Table

end Lalr
