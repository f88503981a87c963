import Lalr.Grammar.Augmented
import Lalr.ItemSet

/-!
# Closure

The closure of an item set adds the rules of every nonterminal that stands after a dot.  The lookaheads of
the rules added for `A ::= α . B β` are the terminals that begin `β` and, when `β` is nullable, the
lookaheads of that item; where this leaves no lookahead at all, nothing is added.  `Augmented.close` repeats
the step until nothing changes.

`Augmented.closureNonterminals` finds which nonterminals the closure expands when lookaheads are left out
of account.
-/

namespace Lalr

namespace Augmented

/-- The items that one item calls for. -/
def expand (g : Augmented) (i : Item) : Except Fault (List Item) := do
  let r ← i.core.rule? g.rules
  match r.rhs[i.core.dot]? with
  | none => .ok []
  | some b =>
    if g.isNonterminal b then
      let rest := r.rhs.drop (i.core.dot + 1)
      let begin ← g.analysis.firstOfAll? rest
      let lookaheads := if g.analysis.allNullable rest then begin ∪ i.lookaheads else begin
      if lookaheads.isEmpty then .ok []
      else .ok ((g.rulesOf b).map fun n => ⟨⟨n, 0⟩, false, lookaheads⟩)
    else .ok []

/-- Adds what all the items of a set call for, and says whether that changes the set. -/
def closeStep (g : Augmented) (s : ItemSet) : Except Fault (ItemSet × Bool) := do
  let added ← s.items.mapM g.expand
  .ok (s.merge added.flatten)

/-- Enough steps for every rule to be added and for every item to take in every lookahead. -/
def closeFuel (g : Augmented) (s : ItemSet) : Nat :=
  let lookaheads := s.items.foldl (fun count i => count + i.lookaheads.size) g.kinds.size
  (s.items.length + g.rules.size) * (lookaheads + 1) + 1

/-- The closure of an item set. -/
def close (g : Augmented) (s : ItemSet) : Except Fault ItemSet := do
  let (t, _) ← settle g.closeStep (g.closeFuel s) s
  .ok { t with isClosed := true }

/-! ### Closure without lookaheads -/

/-- The nonterminals after the dots of the given cores, in order of first occurrence. -/
def markedNonterminals (g : Augmented) (cores : List Core) : Except Fault (List Symbol) := do
  let marked ← cores.mapM fun c => c.marked? g.rules
  .ok ((marked.filterMap id).filter g.isNonterminal).eraseDups

/-- Follows the pending nonterminals, those of `found` that have not been looked at, to the nonterminals
that begin their rules. -/
def followNonterminals (g : Augmented) :
    Nat → List Symbol → List Symbol → Except Fault (List Symbol)
  | _, found, [] => .ok found
  | 0, _, _ :: _ => .error .unsettled
  | fuel + 1, found, s :: pending => do
    let leading ← g.markedNonterminals ((g.rulesOf s).map fun n => ⟨n, 0⟩)
    let fresh := leading.filter fun t => !found.contains t
    followNonterminals g fuel (found ++ fresh) (pending ++ fresh)

/-- The nonterminals whose rules the closure of a kernel may add, in order of discovery. -/
def closureNonterminals (g : Augmented) (s : ItemSet) : Except Fault (List Symbol) := do
  let marked ← g.markedNonterminals (s.kernel.map Item.core)
  g.followNonterminals g.kinds.size marked marked

end Augmented

end Lalr
