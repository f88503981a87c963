import Std.Data.ExtTreeMap
import Std.Data.ExtTreeSet

/-!
# Symbols

A grammar symbol is a number in a 32-bit signed word.  The library reserves three numbers: the end of
input, the customary number of the "unknown" terminal, and a placeholder that the lookahead computation
uses and that no grammar may declare.

Sets of symbols and maps keyed by symbols are the extensional search trees of the standard library, in
ascending order of the numbers: two of them are equal when they have the same content.
-/

namespace Lalr

/-- The identity of a terminal or nonterminal. -/
structure Symbol where
  /-- The number of the symbol. -/
  id : Int32
deriving BEq, ReflBEq, LawfulBEq, Inhabited

instance : DecidableEq Symbol := instDecidableEqOfLawfulBEq

namespace Symbol

/-- The end of input, the same for every grammar. -/
def eof : Symbol := ⟨-1⟩

/-- The customary number of the terminal that stands for unrecognised input. -/
def unknown : Symbol := ⟨-2⟩

/-- The lookahead that marks propagation while lookaheads are computed; no grammar may declare it. -/
def placeholder : Symbol := ⟨Int32.minValue⟩

/-- Symbols are ordered by their numbers. -/
instance : Ord Symbol := ⟨compareOn Symbol.id⟩

instance : Std.TransOrd Symbol := inferInstanceAs (Std.TransCmp (compareOn Symbol.id))

instance : Std.LawfulEqOrd Symbol where
  compare_self := Std.ReflOrd.compare_self (α := Int32)
  eq_of_compare {a b} h := by
    have hid : a.id = b.id := Std.LawfulEqOrd.eq_of_compare (α := Int32) h
    cases a
    cases b
    exact congrArg Symbol.mk hid

/-- The text of a symbol: its number, or `(EOF)` for the end of input. -/
def text (s : Symbol) : String :=
  if s = eof then "(EOF)" else toString s.id.toInt

end Symbol

/-- A way of naming symbols in listings and messages. -/
abbrev Naming := Symbol → String

/-- Whether a symbol is a token of the input or is defined by rules. -/
inductive Kind where
  | terminal
  | nonterminal
deriving DecidableEq, Inhabited

/-- The word for a kind in messages. -/
def Kind.text : Kind → String
  | .terminal => "terminal"
  | .nonterminal => "non-terminal"

/-- The body of a rule: the symbols on its right-hand side. -/
abbrev Body := List Symbol

/-- The symbols of a body, separated by blanks. -/
def Body.text (body : Body) : String :=
  " ".intercalate (body.map Symbol.text)

/-- A set of symbols. -/
abbrev SymbolSet := Std.ExtTreeSet Symbol

/-- A map keyed by symbols. -/
abbrev SymbolMap (β : Type) := Std.ExtTreeMap Symbol β

/-- A classification of symbols into terminals and nonterminals. -/
abbrev Kinds := SymbolMap Kind

namespace SymbolSet

/-- Whether every symbol of `s` is in `t`. -/
def subset (s t : SymbolSet) : Bool :=
  s.toList.all fun x => t.contains x

/-- The test for inclusion decides inclusion. -/
theorem subset_iff {s t : SymbolSet} : subset s t = true ↔ ∀ x ∈ s, x ∈ t := by
  simp [subset]

end SymbolSet

end Lalr
