import Lalr.Rule

/-!
# Contexts

A parser leaves the building of nodes to its context.  A context is a set of functions over a memory that
the parser carries from one call to the next: they make nodes, receive the root, see every token before the
table does, and may replace a token that does not fit.
-/

namespace Lalr

/-- A token of the input. -/
structure Token where
  /-- What the token is for the grammar. -/
  symbol : Symbol
  /-- The text it stands for. -/
  text : String
  /-- Where it stands. -/
  position : Nat
deriving BEq, ReflBEq, LawfulBEq

instance : DecidableEq Token := instDecidableEqOfLawfulBEq

/-- The end of the input at a position. -/
def Token.eof (position : Nat) : Token := ⟨Symbol.eof, "", position⟩

/-- Everything known about a token that does not fit. -/
structure Rejection (N : Type) where
  /-- The terminals that would fit. -/
  expected : List Symbol
  /-- The symbol that does not fit. -/
  found : Symbol
  /-- The text of the token. -/
  text : String
  /-- Where the token stands. -/
  position : Nat
  /-- The nodes on the stack, the one next to the root first. -/
  stack : List N

/-- What a parser calls to make nodes of type `N`, with a memory of type `σ`. -/
structure Context (σ N : Type) where
  /-- The node of a token that is shifted. -/
  terminal : Token → σ → N × σ
  /-- The node of a reduction by a rule, given the nodes of its body. -/
  nonterminal : Rule → List N → σ → N × σ
  /-- Receives the root of an accepted input. -/
  accept : N → σ → σ
  /-- Answers a token that does not fit: another symbol to try in its place, or nothing to give up. -/
  reject : Rejection N → σ → Option Symbol × σ := fun _ memory => (none, memory)
  /-- Sees a token before the table does: the symbol to parse it as, or nothing to drop it. -/
  filter : Symbol → String → σ → Option Symbol × σ := fun symbol _ memory => (some symbol, memory)
  /-- The name of a symbol in notices. -/
  name : Symbol → σ → String := fun symbol _ => symbol.text

end Lalr
