import Lalr.Item

/-!
# Item sets

A state of the automaton is a set of items, at most one for each core.  The items stand in the order of
their first insertion; inserting a core again adds lookaheads to the item that is there, which keeps its
place and its kernel flag.  Two states are the same when the cores of their kernels are the same.
-/

namespace Lalr

/-- A set of items with distinct cores. -/
structure ItemSet where
  /-- The items in order of first insertion. -/
  items : List Item := []
  /-- The number of the state, once it has one. -/
  index : Option Nat := none
  /-- Whether the set has been closed. -/
  isClosed : Bool := false
  /-- The nonterminals whose rules the closure adds, once they have been found. -/
  nonterminals : Option (List Symbol) := none
deriving BEq, ReflBEq, LawfulBEq

instance : DecidableEq ItemSet := instDecidableEqOfLawfulBEq

namespace ItemSet

/-- The item with the given core. -/
def get? (s : ItemSet) (c : Core) : Option Item :=
  s.items.find? fun i => i.core == c

/-- Adds lookaheads to the items with the given core. -/
def extend (s : ItemSet) (c : Core) (lookaheads : SymbolSet) : ItemSet :=
  { s with items := s.items.map fun i =>
      if i.core = c then { i with lookaheads := i.lookaheads ∪ lookaheads } else i }

/-- Adds lookaheads to the item with the given core and says whether one of them is new; `none` when there
is no such item. -/
def addLookaheads? (s : ItemSet) (c : Core) (lookaheads : SymbolSet) : Option (ItemSet × Bool) :=
  (s.get? c).map fun i =>
    if SymbolSet.subset lookaheads i.lookaheads then (s, false)
    else (s.extend c lookaheads, true)

/-- Inserts an item, or its lookaheads when its core is there already, and says whether the set changes. -/
def insert (s : ItemSet) (i : Item) : ItemSet × Bool :=
  match s.addLookaheads? i.core i.lookaheads with
  | some result => result
  | none => ({ s with items := s.items ++ [i] }, true)

/-- Inserts items one after the other and says whether any of them changes the set. -/
def merge (s : ItemSet) (items : List Item) : ItemSet × Bool :=
  items.foldl (fun (acc : ItemSet × Bool) i =>
    let (t, changed) := acc.1.insert i
    (t, acc.2 || changed)) (s, false)

/-- The set of the given items. -/
def ofList (items : List Item) : ItemSet :=
  (merge {} items).1

/-- The items of the kernel. -/
def kernel (s : ItemSet) : List Item :=
  s.items.filter Item.isKernel

/-- The cores of the kernel in ascending order: the identity of a state. -/
def kernelKey (s : ItemSet) : List Core :=
  (Std.ExtTreeSet.ofList (s.kernel.map Item.core)).toList

/-- Numbers a state; a number once given cannot be changed. -/
def setIndex (s : ItemSet) (index : Nat) : Except Fault ItemSet :=
  if s.index = none ∨ s.index = some index then .ok { s with index := some index }
  else .error .indexReassigned

end ItemSet

end Lalr
