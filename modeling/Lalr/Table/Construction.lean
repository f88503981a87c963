import Lalr.Automaton.Lookahead
import Lalr.Notice

/-!
# Construction of tables

The table of a grammar is read from its closed automaton.  A transition on a nonterminal becomes a goto.  On
a terminal the transition, if there is one, is a shift, and each complete item with the terminal among its
lookaheads calls for a reduction, or for accepting when its rule is the augmenting rule.  The items are taken
in order: a shift stands against reductions, accepting replaces what was there and stands against later
reductions, and reductions that compete are kept together.
-/

namespace Lalr

/-- What the items have made of one cell so far. -/
structure Resolution where
  /-- The action of the cell. -/
  action : Option Action := none
  /-- The conflicts decided. -/
  notices : List Notice := []
  /-- How often reductions were merged. -/
  merges : Nat := 0

namespace Resolution

/-- Takes account of the reduction by a rule other than the augmenting rule. -/
def reduce (r : Resolution) (cell : Cell) (rule : Rule) (n : Nat) : Except Fault Resolution :=
  match r.action with
  | none => .ok { r with action := some (.reduce n) }
  | some (.shift target) =>
    .ok { r with notices := r.notices ++ [.shiftReduce cell.state cell.symbol target rule] }
  | some .accept => .ok { r with notices := r.notices ++ [.acceptReduce cell.state rule] }
  | some action =>
    match action.addReduction? n with
    | none => .error (.cannotMerge action)
    | some merged =>
      .ok { r with
        action := some merged
        merges := if merged.isAmbiguous then r.merges + 1 else r.merges }

/-- Takes account of a complete item that has the symbol of the cell among its lookaheads. -/
def consider (g : Augmented) (cell : Cell) (r : Resolution) (i : Item) : Except Fault Resolution :=
  if i.core.rule = Augmented.augmentingRule then
    if cell.symbol = Symbol.eof then .ok { r with action := some .accept } else .ok r
  else do
    let rule ← i.core.rule? g.rules
    r.reduce cell rule i.core.rule

end Resolution

namespace Augmented

/-- The complete items of a state. -/
def completeItems (g : Augmented) (s : ItemSet) : Except Fault (List Item) := do
  let items ← s.items.mapM fun i => do
    let isComplete ← i.core.isComplete g.rules
    Except.ok (if isComplete then some i else none)
  .ok (items.filterMap id)

/-- What becomes of a cell, given the complete items of its state. -/
def resolve (g : Augmented) (a : Automaton) (complete : List Item) (cell : Cell) (kind : Kind) :
    Except Fault Resolution :=
  let target := a.goto? cell.state cell.symbol
  match kind with
  | .nonterminal => .ok { action := target.map Action.goto }
  | .terminal =>
    (complete.filter fun i => i.lookaheads.contains cell.symbol).foldlM
      (Resolution.consider g cell) { action := target.map Action.shift }

/-- What becomes of the cells of one state. -/
def resolveState (g : Augmented) (a : Automaton) (state : Nat) (s : ItemSet) :
    Except Fault (List (Cell × Resolution)) := do
  let complete ← g.completeItems s
  g.kinds.toList.mapM fun (symbol, kind) => do
    let r ← g.resolve a complete ⟨state, symbol⟩ kind
    Except.ok (⟨state, symbol⟩, r)

/-- What becomes of all the cells. -/
def resolveAll (g : Augmented) (a : Automaton) : Except Fault (List (Cell × Resolution)) := do
  let states ← a.states.toList.zipIdx.mapM fun (s, n) => g.resolveState a n s
  .ok states.flatten

/-- The table of the cells that have an action. -/
def tableOf (g : Augmented) (resolved : List (Cell × Resolution)) : Table :=
  Table.ofList 0 (resolved.filterMap fun (cell, r) => r.action.map fun action => (cell, action)) g.rules

end Augmented

/-- The notices about the conflicts in the cells. -/
def conflictNotices (resolved : List (Cell × Resolution)) : List Notice :=
  let merges := resolved.foldl (fun count entry => count + entry.2.merges) 0
  resolved.flatMap (fun entry => entry.2.notices) ++
    if merges > 0 then [.reduceReduce merges] else []

/-- A table with the automaton behind it and the notices of its construction. -/
structure Construction where
  /-- The grammar. -/
  grammar : Augmented
  /-- The closed automaton with lookaheads. -/
  automaton : Automaton
  /-- The table. -/
  table : Table
  /-- What happened on the way. -/
  notices : List Notice

/-- Builds the table of an augmented grammar.  When `verbose`, the report on the automaton is raised to a
level that is normally shown. -/
def Augmented.construct (g : Augmented) (verbose : Bool) : Except Fault Construction := do
  let bare ← g.automaton
  let transfers ← g.transfers bare
  let links := linksOf transfers
  let (lookaheads, passes) ← (Lookaheads.ofTransfers transfers).propagate links
  let automaton ← (bare.withLookaheads lookaheads).close g
  let resolved ← g.resolveAll automaton
  let table := g.tableOf resolved
  .ok {
    grammar := g
    automaton
    table
    notices := [.automatonSize bare.states.size, .linkCount links.length, .lookaheadsStable passes] ++
      conflictNotices resolved ++ [.automaton verbose ⟨g, automaton, table⟩] }

/-- Checks and augments a grammar, and builds its table. -/
def Grammar.construct (g : Grammar) (verbose : Bool) : Except Failure Construction := do
  let augmented ← g.augment
  let c ← (augmented.construct verbose).mapError Failure.fault
  .ok { c with notices := .grammarSize augmented.kinds.size augmented.rules.size :: c.notices }

end Lalr
