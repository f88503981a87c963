import Lalr.Automaton

/-!
# Lookaheads

The lookaheads of the kernel items are found in two steps.  First each kernel item is closed alone with the
placeholder as its only lookahead.  An item of that closure passes to the state that its marked symbol leads
to the lookaheads that have come up on the way, and, where the placeholder has reached it, whatever the
kernel item itself will have: it gives rise to a link.  Then lookaheads are carried along the links until
nothing grows.
-/

namespace Lalr

/-- A core in a state. -/
structure Site where
  /-- The number of the state. -/
  state : Nat
  /-- The core. -/
  core : Core
deriving BEq, ReflBEq, LawfulBEq

instance : DecidableEq Site := instDecidableEqOfLawfulBEq

namespace Site

/-- Sites are ordered by state, then by core. -/
instance : Ord Site := ⟨compareLex (compareOn Site.state) (compareOn Site.core)⟩

instance : Std.TransOrd Site :=
  inferInstanceAs (Std.TransCmp (compareLex (compareOn Site.state) (compareOn Site.core)))

instance : Std.LawfulEqOrd Site where
  compare_self {a} :=
    compareLex_eq_eq.2 ⟨Std.ReflOrd.compare_self (a := a.state), Std.ReflOrd.compare_self (a := a.core)⟩
  eq_of_compare {a b} h := by
    obtain ⟨hstate, hcore⟩ := compareLex_eq_eq.1 h
    have hs : a.state = b.state := Std.LawfulEqOrd.eq_of_compare hstate
    have hc : a.core = b.core := Std.LawfulEqOrd.eq_of_compare hcore
    cases a
    cases b
    exact congr (congrArg Site.mk hs) hc

end Site

/-- The lookaheads at each site; a site that is not listed has none. -/
abbrev Lookaheads := Std.ExtTreeMap Site SymbolSet

namespace Lookaheads

/-- The lookaheads at a site. -/
def get (m : Lookaheads) (site : Site) : SymbolSet :=
  m.getD site ∅

/-- Adds lookaheads at a site. -/
def add (m : Lookaheads) (site : Site) (set : SymbolSet) : Lookaheads :=
  m.insert site (get m site ∪ set)

/-- The number of lookaheads at all sites. -/
def total (m : Lookaheads) : Nat :=
  m.toList.foldl (fun count entry => count + entry.2.size) 0

end Lookaheads

/-- What a kernel item hands on to an item of a state that follows. -/
structure Transfer where
  /-- The kernel item. -/
  source : Site
  /-- The item that receives. -/
  target : Site
  /-- The lookaheads that arise on the way. -/
  generated : SymbolSet
  /-- Whether the lookaheads of the kernel item are handed on too. -/
  propagates : Bool

/-- A way along which lookaheads are carried from one site to another. -/
abbrev Link := Site × Site

namespace Augmented

/-- What one item of the closure of a kernel item hands on. -/
def transferOf (g : Augmented) (a : Automaton) (source : Site) (i : Item) :
    Except Fault (Option Transfer) := do
  match ← i.core.marked? g.rules with
  | none => .ok none
  | some x =>
    let target ← a.goto source.state x
    let _ ← a.item target i.core.advance
    .ok (some {
      source
      target := ⟨target, i.core.advance⟩
      generated := i.lookaheads.erase Symbol.placeholder
      propagates := i.lookaheads.contains Symbol.placeholder })

/-- What a kernel item hands on. -/
def transfersFrom (g : Augmented) (a : Automaton) (source : Site) : Except Fault (List Transfer) := do
  let probe ← g.close (ItemSet.ofList [⟨source.core, true, {Symbol.placeholder}⟩])
  let transfers ← probe.items.mapM (g.transferOf a source)
  .ok (transfers.filterMap id)

end Augmented

/-- The sites of the kernel items, state by state. -/
def Automaton.kernelSites (a : Automaton) : List Site :=
  a.states.toList.zipIdx.flatMap fun (s, n) => s.kernel.map fun i => ⟨n, i.core⟩

/-- What all the kernel items hand on. -/
def Augmented.transfers (g : Augmented) (a : Automaton) : Except Fault (List Transfer) := do
  let transfers ← a.kernelSites.mapM (g.transfersFrom a)
  .ok transfers.flatten

/-- The links among transfers. -/
def linksOf (transfers : List Transfer) : List Link :=
  (transfers.filter Transfer.propagates).map fun t => (t.source, t.target)

namespace Lookaheads

/-- The lookaheads before any are carried along: the end of input after the augmenting rule, and what the
transfers generate. -/
def ofTransfers (transfers : List Transfer) : Lookaheads :=
  transfers.foldl (fun m t => add m t.target t.generated)
    (add ∅ ⟨0, ⟨Augmented.augmentingRule, 0⟩⟩ {Symbol.eof})

/-- Carries lookaheads along one link and notes whether any of them is new. -/
def carry (acc : Lookaheads × Bool) (link : Link) : Lookaheads × Bool :=
  let set := get acc.1 link.1
  if SymbolSet.subset set (get acc.1 link.2) then acc else (add acc.1 link.2 set, true)

/-- Carries lookaheads once along each link, in order. -/
def pass (links : List Link) (m : Lookaheads) : Lookaheads × Bool :=
  links.foldl carry (m, false)

/-- Carries lookaheads along the links until nothing grows, and counts the passes. -/
def propagate (links : List Link) (m : Lookaheads) : Except Fault (Lookaheads × Nat) :=
  settle (fun m => .ok (pass links m)) (links.length * total m + 1) m

end Lookaheads

namespace Automaton

/-- Gives the items of all states their lookaheads. -/
def withLookaheads (a : Automaton) (m : Lookaheads) : Automaton :=
  { a with states := a.states.mapIdx fun n s =>
      { s with items := s.items.map fun i => { i with lookaheads := Lookaheads.get m ⟨n, i.core⟩ } } }

/-- Closes all states. -/
def close (a : Automaton) (g : Augmented) : Except Fault Automaton := do
  let states ← a.states.toList.mapM g.close
  .ok { a with states := states.toArray }

end Automaton

end Lalr
