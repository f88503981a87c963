import Lalr.Automaton.Closure

/-!
# The automaton

The states are found from the augmenting rule on, each state from the kernel that a transition leads to;
a kernel that is known already gives no new state.  States are numbered in order of discovery.
-/

namespace Lalr

/-- The states of the automaton and the transitions out of each of them. -/
structure Automaton where
  /-- The item sets by number. -/
  states : Array ItemSet
  /-- For each state, the number of the state that each symbol leads to. -/
  transitions : Array (SymbolMap Nat)

namespace Automaton

/-- The state that a symbol leads to. -/
def goto? (a : Automaton) (state : Nat) (s : Symbol) : Option Nat := do
  let row ← a.transitions[state]?
  row[s]?

/-- The state that a symbol leads to, which has to exist. -/
def goto (a : Automaton) (state : Nat) (s : Symbol) : Except Fault Nat :=
  match a.goto? state s with
  | some target => .ok target
  | none => .error (.noTransition state s)

/-- The item of a state with a given core, which has to exist. -/
def item (a : Automaton) (state : Nat) (c : Core) : Except Fault Item :=
  match a.states[state]?.bind fun s => s.get? c with
  | some i => .ok i
  | none => .error (.noItem state c.rule c.dot)

end Automaton

/-- The automaton while its states are being found. -/
structure Exploration where
  /-- The states found so far. -/
  states : Array ItemSet
  /-- Their kernels, by number. -/
  keys : Array (List Core)
  /-- The transitions of the states visited so far. -/
  transitions : Array (SymbolMap Nat)

namespace Exploration

/-- The set of kernel items with the given cores and no lookaheads. -/
def kernelOf (cores : List Core) : ItemSet :=
  ItemSet.ofList (cores.map fun c => ⟨c, true, ∅⟩)

/-- Before anything is visited only the state of the augmenting rule is known. -/
def start : Exploration :=
  let s := kernelOf [⟨Augmented.augmentingRule, 0⟩]
  { states := #[s], keys := #[s.kernelKey], transitions := #[] }

/-- The number of the state with the given kernel, which becomes a new state if it is not known. -/
def enter (e : Exploration) (cores : List Core) : Exploration × Nat :=
  let s := kernelOf cores
  match e.keys.idxOf? s.kernelKey with
  | some n => (e, n)
  | none =>
    ({ e with states := e.states.push s, keys := e.keys.push s.kernelKey }, e.states.size)

/-- Enters the kernels that the symbols of a state lead to, in order. -/
def enterAll (e : Exploration) (groups : List (Symbol × List Core)) : Exploration × SymbolMap Nat :=
  groups.foldl (fun (acc : Exploration × SymbolMap Nat) group =>
    let (e, n) := acc.1.enter group.2
    (e, acc.2.insert group.1 n)) (e, ∅)

end Exploration

namespace Augmented

/-- The cores with the dot moved over each marked symbol, grouped by that symbol in order of first
occurrence: first those of the kernel, then those of the rules that the closure adds. -/
def moves (g : Augmented) (s : ItemSet) : Except Fault (List (Symbol × List Core)) := do
  let added := (s.nonterminals.getD []).flatMap fun nt => (g.rulesOf nt).map fun n => (⟨n, 0⟩ : Core)
  let marked ← (s.kernel.map Item.core ++ added).mapM fun c => do
    let symbol ← c.marked? g.rules
    Except.ok (symbol.map fun x => (x, c.advance))
  let steps := marked.filterMap id
  .ok ((steps.map Prod.fst).eraseDups.map fun x =>
    (x, (steps.filter fun step => step.1 == x).map Prod.snd))

/-- Visits state `n`: finds its nonterminals, numbers it, and enters the states it leads to. -/
def visit (g : Augmented) (e : Exploration) (n : Nat) (s : ItemSet) : Except Fault Exploration := do
  let nonterminals ← g.closureNonterminals s
  let s ← { s with nonterminals := some nonterminals }.setIndex n
  let groups ← g.moves s
  let (e, row) := { e with states := e.states.setIfInBounds n s }.enterAll groups
  .ok { e with transitions := e.transitions.push row }

/-- Visits the states from number `n` on until all of them have been visited. -/
def explore (g : Augmented) : Nat → Nat → Exploration → Except Fault Exploration
  | fuel, n, e =>
    match e.states[n]? with
    | none => .ok e
    | some s =>
      match fuel with
      | 0 => .error .unsettled
      | fuel + 1 => do
        let e ← g.visit e n s
        explore g fuel (n + 1) e

/-- The number of cores of a grammar. -/
def coreCount (g : Augmented) : Nat :=
  g.rules.toList.foldl (fun count r => count + (r.rhs.length + 1)) 0

/-- The automaton of a grammar, without lookaheads.  A kernel is a set of cores, which bounds the number of
states. -/
def automaton (g : Augmented) : Except Fault Automaton := do
  let e ← g.explore (Nat.pow 2 g.coreCount) 0 Exploration.start
  .ok { states := e.states, transitions := e.transitions }

end Augmented

end Lalr
