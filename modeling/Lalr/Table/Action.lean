import Lalr.Symbol

/-!
# Actions

The content of one cell of a parsing table.  A cell with no action is an error for the parser.
-/

namespace Lalr

/-- A set of rule numbers. -/
abbrev RuleSet := Std.ExtTreeSet Nat

/-- What a parser does in a state that meets a symbol. -/
inductive Action where
  /-- The input is complete. -/
  | accept
  /-- Consume the terminal and enter a state. -/
  | shift (state : Nat)
  /-- Reduce by a rule. -/
  | reduce (rule : Nat)
  /-- Several rules compete for the reduction. -/
  | reduceMulti (rules : RuleSet)
  /-- Enter a state after a reduction to this nonterminal. -/
  | goto (state : Nat)
deriving BEq, ReflBEq, LawfulBEq

instance : DecidableEq Action := instDecidableEqOfLawfulBEq

namespace Action

/-- The text of an action: `(accept)`, `s3`, `r3`, `r(1,2)` or `g3`. -/
def text : Action → String
  | accept => "(accept)"
  | shift state => s!"s{state}"
  | reduce rule => s!"r{rule}"
  | reduceMulti rules => "r(" ++ ",".intercalate (rules.toList.map toString) ++ ")"
  | goto state => s!"g{state}"

/-- Whether several rules compete in this action. -/
def isAmbiguous : Action → Bool
  | reduceMulti _ => true
  | _ => false

/-- Adds one more reduction to an action that already reduces; another rule than the present one makes
the action ambiguous.  Only reductions can be merged. -/
def addReduction? (a : Action) (rule : Nat) : Option Action :=
  match a with
  | reduce r => if r = rule then some (reduce r) else some (reduceMulti {r, rule})
  | reduceMulti rules => some (reduceMulti (rules.insert rule))
  | _ => none

end Action

end Lalr
