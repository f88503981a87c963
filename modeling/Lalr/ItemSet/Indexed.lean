import Lalr.Fault
import Lalr.ItemSet

/-!
# Item sets with an index

An index leads from a core to the place of its item in the list, so that an item is found without a search.  A new
item is entered in the index with the place at the end of the list, and lookaheads are added to the item at its place.
Nothing in the data keeps the index and the list together: a place that the list does not have is an overrun.
-/

namespace Lalr

/-- Adds symbols to the lookaheads of an item and says whether they have become more. -/
def Item.extend (i : Item) (symbols : List Symbol) : Item × Bool :=
  let lookaheads := i.lookaheads.insertMany symbols
  ({ i with lookaheads }, i.lookaheads.size < lookaheads.size)

/-- An item set with an index of its items. -/
structure IndexedItemSet extends ItemSet where
  /-- The place of the item with a given core. -/
  places : Std.ExtTreeMap Core Nat := ∅

namespace IndexedItemSet

/-- The item at a place, which the list has to have. -/
def itemAt (s : IndexedItemSet) (n : Nat) : Except Overrun Item :=
  match s.items[n]? with
  | some i => .ok i
  | none => .error ⟨s.items.length, n⟩

/-- Adds lookaheads to the item at a place and says whether one of them is new. -/
def extendAt (s : IndexedItemSet) (n : Nat) (symbols : List Symbol) : Except Overrun (IndexedItemSet × Bool) := do
  let i ← s.itemAt n
  let (j, changed) := i.extend symbols
  .ok ({ s with items := s.items.set n j }, changed)

/-- The item with the given core. -/
def get? (s : IndexedItemSet) (c : Core) : Except Overrun (Option Item) :=
  match s.places[c]? with
  | some n => (s.itemAt n).map some
  | none => .ok none

/-- Adds lookaheads to the item with the given core and says whether one of them is new; `none` when there is no such
item. -/
def addLookaheads? (s : IndexedItemSet) (c : Core) (symbols : List Symbol) :
    Except Overrun (Option (IndexedItemSet × Bool)) :=
  match s.places[c]? with
  | some n => (s.extendAt n symbols).map some
  | none => .ok none

/-- Inserts an item, or its lookaheads when its core is there already, and says whether the set changes. -/
def insert (s : IndexedItemSet) (i : Item) : Except Overrun (IndexedItemSet × Bool) :=
  match s.places[i.core]? with
  | some n => s.extendAt n i.lookaheads.toList
  | none =>
    .ok ({ s with items := s.items ++ [i], places := s.places.insert i.core s.items.length }, true)

/-- Inserts one more item, after others of which it is known whether they have changed the set. -/
def insertNext (acc : IndexedItemSet × Bool) (i : Item) : Except Overrun (IndexedItemSet × Bool) := do
  let (t, changed) ← acc.1.insert i
  .ok (t, acc.2 || changed)

/-- Inserts items one after the other and says whether any of them changes the set. -/
def merge (s : IndexedItemSet) (items : List Item) : Except Overrun (IndexedItemSet × Bool) :=
  items.foldlM insertNext (s, false)

/-- The set of the given items. -/
def ofList (items : List Item) : Except Overrun IndexedItemSet := do
  let (s, _) ← merge {} items
  .ok s

/-- The cores of the kernel, sorted: the identity of a state. -/
def kernelKey (s : IndexedItemSet) : List Core :=
  (s.kernel.map Item.core).mergeSort fun c d => (compare c d).isLE

/-- Numbers a state; a number once given cannot be changed. -/
def setIndex (s : IndexedItemSet) (index : Nat) : Except Fault IndexedItemSet := do
  let t ← s.toItemSet.setIndex index
  .ok { s with toItemSet := t }

end IndexedItemSet

end Lalr
