import Lalr.Symbol

/-!
# Rules

A rule says what its left-hand side may consist of.  Rules carry the number by which tables refer to them.
-/

namespace Lalr

/-- A grammar rule `lhs ::= rhs` with its number. -/
structure Rule where
  /-- The number of the rule. -/
  index : Nat
  /-- The nonterminal that the rule defines. -/
  lhs : Symbol
  /-- The symbols that stand for it. -/
  rhs : Body
deriving BEq, ReflBEq, LawfulBEq, Inhabited

instance : DecidableEq Rule := instDecidableEqOfLawfulBEq

namespace Rule

/-- The text of a rule under a naming: its number, its left-hand side, and its body. -/
def textWith (name : Naming) (r : Rule) : String :=
  s!"{r.index}: {name r.lhs} ::=" ++ String.join (r.rhs.map fun s => " " ++ name s)

/-- The text of a rule with symbols written as numbers. -/
def text (r : Rule) : String :=
  r.textWith Symbol.text

end Rule

end Lalr
