import Lalr.Rule

/-!
# Grammars

A grammar is a list of productions with three symbols set apart and a classification of its symbols.  The
initial symbol has no production of its own: the rule that leads from it to the start symbol is added when
the grammar is augmented.
-/

namespace Lalr

/-- A grammar as it is given: nothing is required of its parts. -/
structure Grammar where
  /-- The terminal for unrecognised input. -/
  unknown : Symbol
  /-- The symbol of the augmenting rule. -/
  init : Symbol
  /-- The symbol that derives the language. -/
  start : Symbol
  /-- The productions in the order in which they are given, possibly repeated. -/
  productions : List (Symbol × Body)
  /-- The declared kinds. -/
  kinds : Kinds

namespace Grammar

/-- The kinds of a grammar; the end of input is a terminal unless it is declared. -/
def classification (g : Grammar) : Kinds :=
  g.kinds.insertIfNew Symbol.eof .terminal

/-- The augmenting rule followed by the other productions, each once, in order of first occurrence.
Productions of the initial symbol are left out. -/
def distinctProductions (g : Grammar) : List (Symbol × Body) :=
  ((g.init, [g.start]) :: g.productions.filter fun p => p.1 != g.init).eraseDups

/-- The rules of the augmented grammar, numbered from the augmenting rule on. -/
def rules (g : Grammar) : Array Rule :=
  (g.distinctProductions.mapIdx fun i p => ⟨i, p.1, p.2⟩).toArray

end Grammar

end Lalr
