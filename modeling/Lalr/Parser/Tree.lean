import Lalr.Parser

/-!
# Syntax trees

The plainest context makes a tree of what the parser does: a leaf for each token that is shifted, an inner
node for each reduction.
-/

namespace Lalr

/-- A syntax tree. -/
inductive Tree where
  /-- A token. -/
  | leaf (token : Token)
  /-- A reduction by a rule. -/
  | node (rule : Rule) (children : List Tree)

namespace Tree

/-- The symbol at the root. -/
def symbol : Tree → Symbol
  | leaf token => token.symbol
  | node rule _ => rule.lhs

mutual

/-- The tokens at the leaves, from left to right. -/
def leaves : Tree → List Token
  | leaf token => [token]
  | node _ children => leavesOfAll children

/-- The tokens at the leaves of several trees, from left to right. -/
def leavesOfAll : List Tree → List Token
  | [] => []
  | t :: rest => t.leaves ++ leavesOfAll rest

end

/-- The context that makes trees; its memory is the accepted tree. -/
def context : Context (Option Tree) Tree where
  terminal token memory := (leaf token, memory)
  nonterminal rule children memory := (node rule children, memory)
  accept root _ := some root

/-- The context that only counts leaves; its memory is the count of the accepted input. -/
def countContext : Context (Option Nat) Nat where
  terminal _ memory := (1, memory)
  nonterminal _ children memory := (children.foldl (fun count child => count + child) 0, memory)
  accept root _ := some root

end Tree

end Lalr
