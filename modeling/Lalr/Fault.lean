import Lalr.Rule
import Lalr.Table.Action

/-!
# Faults

A fault is a failure inside the library, as opposed to an error that it reports about its input: a table
that contradicts itself, a symbol without a kind where one is needed, a number that does not fit its word.
A computation that may meet a fault returns it as a value, so that its absence can be stated.  Reading an
array at a position that it does not have is an overrun, which is kept apart from the faults.
-/

namespace Lalr

/-- An internal failure. -/
inductive Fault where
  /-- The symbol has no kind. -/
  | unclassified (symbol : Symbol)
  /-- The automaton has no transition out of the state on the symbol. -/
  | noTransition (state : Nat) (symbol : Symbol)
  /-- The state does not hold the item with this rule and dot. -/
  | noItem (state rule dot : Nat)
  /-- A reduction meets an action that is no reduction. -/
  | cannotMerge (action : Action)
  /-- The rule number is not below the number of rules. -/
  | ruleOutOfBounds (count index : Nat)
  /-- A state that has an index is given another one. -/
  | indexReassigned
  /-- The number does not fit into 32 bits. -/
  | indexTooLarge (value : Nat)
  /-- The table reduces by a rule that it does not list. -/
  | unknownRule (index : Nat)
  /-- The stack is too short for the body of the rule. -/
  | stackUnderflow (rule : Rule)
  /-- The root of the stack would be popped. -/
  | popRoot (state : Nat)
  /-- Accepting leaves frames on the stack. -/
  | acceptLeaves (state frames : Nat)
  /-- The table does not say where to go after the reduction. -/
  | noGoto (state : Nat) (rule : Rule)
  /-- The table has no move where one was foreseen. -/
  | noMove (symbol : Symbol) (state : Nat) (action : Option Action)
  /-- An iteration has used up its fuel before it settled. -/
  | unsettled
deriving DecidableEq

/-- The wording of a fault. -/
def Fault.message : Fault → String
  | unclassified symbol => s!"symbol {symbol.text} is not part of the grammar"
  | noTransition state symbol => s!"state {state} has no transition on {symbol.text}"
  | noItem state rule dot => s!"state {state} has no item ({rule}, {dot})"
  | cannotMerge action =>
    s!"internal error: entered unreachable code: cannot merge a reduction into {action.text}"
  | ruleOutOfBounds count index =>
    s!"index out of bounds: the len is {count} but the index is {index}"
  | indexReassigned => "state index assigned twice"
  | indexTooLarge value => s!"table index {value} does not fit in 32 bits"
  | unknownRule index => s!"reduction by unknown rule {index}"
  | stackUnderflow rule => s!"stack underflow reducing rule {rule.text}"
  | popRoot state => s!"cannot pop the root frame in state {state}"
  | acceptLeaves state frames =>
    s!"accept in state {state} leaves {frames} frames on the stack"
  | noGoto state rule =>
    s!"no goto from state {state} on {rule.lhs.text} after reducing rule {rule.text}"
  | noMove symbol state action =>
    let cell := (action.map Action.text).getD "no action"
    s!"internal error: entered unreachable code: no move on {symbol.text} in state {state}: {cell}"
  | unsettled => "the iteration did not settle"

/-- A position is used that lies outside an array. -/
structure Overrun where
  /-- How many elements the array has. -/
  length : Nat
  /-- The position. -/
  position : Nat

end Lalr
