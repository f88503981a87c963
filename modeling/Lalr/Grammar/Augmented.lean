import Lalr.Grammar.Analysis
import Lalr.Grammar.Validation

/-!
# Augmented grammars

A grammar without defects is augmented by the rule from its initial to its start symbol.  The result carries
numbered rules, the augmenting rule first, and the analysis of the symbols.
-/

namespace Lalr

/-- A grammar that has passed its checks, ready for the construction of its table. -/
structure Augmented where
  /-- The symbol of the augmenting rule. -/
  init : Symbol
  /-- The symbol that derives the language. -/
  start : Symbol
  /-- The kind of every symbol. -/
  kinds : Kinds
  /-- The rules; the augmenting rule has number zero. -/
  rules : Array Rule
  /-- The numbers of the rules of each symbol. -/
  heads : SymbolMap (List Nat)
  /-- FIRST, FOLLOW and nullable symbols. -/
  analysis : Analysis

namespace Augmented

/-- The number of the augmenting rule. -/
def augmentingRule : Nat := 0

/-- Whether a symbol is a nonterminal. -/
def isNonterminal (g : Augmented) (s : Symbol) : Bool :=
  g.kinds[s]? = some .nonterminal

/-- The numbers of the rules with a given left-hand side, in ascending order. -/
def rulesOf (g : Augmented) (lhs : Symbol) : List Nat :=
  g.heads.getD lhs []

end Augmented

/-- Why no table can be constructed for a grammar. -/
inductive Failure where
  /-- The grammar has defects. -/
  | invalid (error : GrammarError)
  /-- The construction has failed inside. -/
  | fault (fault : Fault)
deriving DecidableEq

namespace Grammar

/-- The numbers of the rules of each classified symbol. -/
def heads (g : Grammar) : SymbolMap (List Nat) :=
  let rules := g.rules.toList
  g.classification.map fun s _ => (rules.filter fun r => r.lhs == s).map Rule.index

/-- Augments a grammar, or reports all its defects. -/
def augment (g : Grammar) : Except Failure Augmented := do
  (GrammarError.check g.defects).mapError Failure.invalid
  let kinds := g.classification
  let (analysis, _) ←
    ((Analysis.ofKinds kinds).compute g.init Symbol.eof g.rules.toList).mapError Failure.fault
  .ok { init := g.init, start := g.start, kinds, rules := g.rules, heads := g.heads, analysis }

end Grammar

end Lalr
