import Lalr.Defect
import Lalr.Grammar

/-!
# Validation of grammars

`Grammar.defects` says everything that is wrong with a grammar.  The defects are listed by group, each group
without repetitions: symbols set apart that have the wrong kind, a declared placeholder, left-hand sides that
must not have rules, symbols without a kind, and nonterminals without rules.
-/

namespace Lalr

namespace Grammar

/-- The symbols set apart, with the kind that each of them has to have. -/
def roles (g : Grammar) : List (Role × Symbol × Kind) :=
  [(.unknown, g.unknown, .terminal), (.eof, Symbol.eof, .terminal),
    (.init, g.init, .nonterminal), (.start, g.start, .nonterminal)]

/-- The symbols set apart that do not have the kind they have to have. -/
def roleDefects (g : Grammar) : List Defect :=
  g.roles.filterMap fun (role, symbol, expected) =>
    if g.classification[symbol]? = some expected then none
    else some (.wrongKind role symbol expected)

/-- The placeholder is declared. -/
def placeholderDefects (g : Grammar) : List Defect :=
  if Symbol.placeholder ∈ g.classification then [.reservedId Symbol.placeholder] else []

/-- What is wrong with `lhs` as a left-hand side, apart from having no kind. -/
def headDefect? (g : Grammar) (lhs : Symbol) : Option Defect :=
  if lhs = g.init then some (.initHasRules lhs)
  else if g.classification[lhs]? = some .terminal then some (.terminalHasRules lhs)
  else none

/-- The left-hand sides that must not have rules, in order of first occurrence. -/
def headDefects (g : Grammar) : List Defect :=
  (g.productions.filterMap fun p => g.headDefect? p.1).eraseDups

section Undefined

attribute [local instance] lexOrd

/-- The symbols without a kind, each with the left-hand side of a production that uses it, in ascending
order.  A left-hand side counts as used by its own production. -/
def undefinedUses (g : Grammar) : List (Symbol × Symbol) :=
  let kinds := g.classification
  let uses := (g.productions.filter fun p => p.1 != g.init).flatMap fun p =>
    ((p.1 :: p.2).filter fun s => !kinds.contains s).map fun s => (s, p.1)
  (Std.ExtTreeSet.ofList uses).toList

end Undefined

/-- The uses of symbols without a kind. -/
def undefinedDefects (g : Grammar) : List Defect :=
  g.undefinedUses.map fun u => .undefinedSymbol u.1 u.2

/-- The nonterminals other than the initial symbol that no production defines, in ascending order. -/
def missingDefects (g : Grammar) : List Defect :=
  let productions := g.distinctProductions
  g.classification.toList.filterMap fun (s, kind) =>
    if kind = .nonterminal ∧ s ≠ g.init ∧ ¬ (productions.any fun p => p.1 == s) then
      some (.noRules s)
    else none

/-- Everything that is wrong with a grammar. -/
def defects (g : Grammar) : List Defect :=
  g.roleDefects ++ g.placeholderDefects ++ g.headDefects ++ g.undefinedDefects ++ g.missingDefects

end Grammar

end Lalr
