import Lalr.Fixpoint

/-!
# FIRST, FOLLOW and nullable symbols

An analysis holds, for each classified symbol, whether it derives the empty string, the terminals that can
begin what it derives, and the terminals that can follow it.  `Analysis.compute` closes an analysis under
the equations of a list of rules.  One `pass` applies all the equations once, and passes are repeated until
the analysis stays as it is, so the outcome does not depend on the order of the rules.
-/

namespace Lalr

/-- What is known about one symbol. -/
structure Facts where
  /-- The kind of the symbol. -/
  kind : Kind
  /-- The terminals that can begin a string derived from the symbol. -/
  first : SymbolSet := ∅
  /-- The terminals that can follow the symbol. -/
  follow : SymbolSet := ∅
  /-- Whether the symbol derives the empty string. -/
  nullable : Bool := false
deriving BEq, ReflBEq, LawfulBEq

instance : DecidableEq Facts := instDecidableEqOfLawfulBEq

/-- The facts about the symbols of a grammar. -/
structure Analysis where
  /-- The facts of each classified symbol. -/
  facts : SymbolMap Facts
deriving BEq, ReflBEq, LawfulBEq

instance : DecidableEq Analysis := instDecidableEqOfLawfulBEq

namespace Analysis

/-- The analysis before any rule is seen: a terminal begins with itself. -/
def ofKinds (kinds : Kinds) : Analysis :=
  ⟨kinds.map fun s kind =>
    { kind, first := if kind = .terminal then {s} else ∅ }⟩

/-- The facts of a symbol, which has to be classified. -/
def lookup (a : Analysis) (s : Symbol) : Except Fault Facts :=
  match a.facts[s]? with
  | some facts => .ok facts
  | none => .error (.unclassified s)

/-- Whether a symbol is known to derive the empty string. -/
def nullable (a : Analysis) (s : Symbol) : Bool :=
  a.facts[s]?.any Facts.nullable

/-- The terminals known to begin a symbol. -/
def first (a : Analysis) (s : Symbol) : SymbolSet :=
  (a.facts[s]?.map Facts.first).getD ∅

/-- The terminals known to follow a symbol. -/
def follow (a : Analysis) (s : Symbol) : SymbolSet :=
  (a.facts[s]?.map Facts.follow).getD ∅

/-- Whether all the symbols of a body are nullable. -/
def allNullable (a : Analysis) (body : Body) : Bool :=
  body.all a.nullable

/-- The terminals that can begin a string derived from a body. -/
def firstOfAll (a : Analysis) : Body → SymbolSet
  | [] => ∅
  | s :: rest => if a.nullable s then a.first s ∪ a.firstOfAll rest else a.first s

/-- The terminals that can begin a body, where each symbol up to the first one that is not nullable has to
be classified. -/
def firstOfAll? (a : Analysis) (body : Body) : Except Fault SymbolSet :=
  match body.find? fun s => !a.nullable s with
  | some s => if s ∈ a.facts then .ok (a.firstOfAll body) else .error (.unclassified s)
  | none => .ok (a.firstOfAll body)

/-! ### Closing an analysis under rules -/

/-- Records that a symbol is nullable. -/
def markNullable (a : Analysis) (s : Symbol) : Analysis :=
  ⟨a.facts.modify s fun f => { f with nullable := true }⟩

/-- Adds terminals that begin a symbol. -/
def addFirst (a : Analysis) (s : Symbol) (set : SymbolSet) : Analysis :=
  ⟨a.facts.modify s fun f => { f with first := f.first ∪ set }⟩

/-- Adds terminals that follow a symbol. -/
def addFollow (a : Analysis) (s : Symbol) (set : SymbolSet) : Analysis :=
  ⟨a.facts.modify s fun f => { f with follow := f.follow ∪ set }⟩

/-- What follows each symbol of a body of `lhs`: the beginnings of the rest of the body and, when that rest
is nullable, what follows `lhs`. -/
def spreadFollow (lhs : Symbol) : Body → Analysis → Analysis
  | [], a => a
  | s :: rest, a =>
    let inherited := if a.allNullable rest then a.follow lhs else ∅
    spreadFollow lhs rest (a.addFollow s (a.firstOfAll rest ∪ inherited))

/-- Applies the equations of one rule once. -/
def applyRule (a : Analysis) (r : Rule) : Analysis :=
  let a := if a.allNullable r.rhs then a.markNullable r.lhs else a
  let a := a.addFirst r.lhs (a.firstOfAll r.rhs)
  spreadFollow r.lhs r.rhs a

/-- Applies the equations of all the rules once. -/
def pass (rules : List Rule) (a : Analysis) : Analysis :=
  rules.foldl applyRule a

/-- The symbols that occur in the sets of an analysis. -/
def occurring (a : Analysis) : SymbolSet :=
  a.facts.toList.foldl (fun u entry => u ∪ entry.2.first ∪ entry.2.follow) ∅

/-- Enough passes for every set to take in every symbol and for every symbol to turn nullable. -/
def fuel (a : Analysis) : Nat :=
  a.facts.size * (2 * a.occurring.size + 1) + 1

/-- The first symbol without facts among the start symbol and the symbols of the rules. -/
def unclassified? (a : Analysis) (start : Symbol) (rules : List Rule) : Option Symbol :=
  (start :: rules.flatMap fun r => r.lhs :: r.rhs).find? fun s => !a.facts.contains s

/-- Closes an analysis under the rules, with `eof` following `start`, and says whether it has grown. -/
def compute (a : Analysis) (start eof : Symbol) (rules : List Rule) :
    Except Fault (Analysis × Bool) :=
  match a.unclassified? start rules with
  | some s => .error (.unclassified s)
  | none => do
    let seeded := a.addFollow start {eof}
    let step (x : Analysis) : Except Fault (Analysis × Bool) :=
      let y := pass rules x
      .ok (y, y ≠ x)
    let (closed, _) ← settle step seeded.fuel seeded
    .ok (closed, closed ≠ a)

end Analysis

end Lalr
