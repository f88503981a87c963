import Lalr.Fault

/-!
# Items

A core is a rule with a dot in its body, and an item is a core with lookaheads.  Items of a state that are
not there merely by closure are its kernel.  Rules are referred to by their position in a list of rules;
a position outside that list is a fault.
-/

namespace Lalr

/-- A rule with a dot that has passed over the first `dot` symbols of its body. -/
structure Core where
  /-- The position of the rule. -/
  rule : Nat
  /-- The number of symbols before the dot. -/
  dot : Nat
deriving BEq, ReflBEq, LawfulBEq, Inhabited

instance : DecidableEq Core := instDecidableEqOfLawfulBEq

namespace Core

/-- Cores are ordered by rule, then by dot. -/
instance : Ord Core := ⟨compareLex (compareOn Core.rule) (compareOn Core.dot)⟩

instance : Std.TransOrd Core :=
  inferInstanceAs (Std.TransCmp (compareLex (compareOn Core.rule) (compareOn Core.dot)))

instance : Std.LawfulEqOrd Core where
  compare_self {a} :=
    compareLex_eq_eq.2 ⟨Std.ReflOrd.compare_self (a := a.rule), Std.ReflOrd.compare_self (a := a.dot)⟩
  eq_of_compare {a b} h := by
    obtain ⟨hrule, hdot⟩ := compareLex_eq_eq.1 h
    have hr : a.rule = b.rule := Std.LawfulEqOrd.eq_of_compare hrule
    have hd : a.dot = b.dot := Std.LawfulEqOrd.eq_of_compare hdot
    cases a
    cases b
    exact congr (congrArg Core.mk hr) hd

/-- The core with the dot one symbol further. -/
def advance (c : Core) : Core :=
  { c with dot := c.dot + 1 }

/-- The rule of a core. -/
def rule? (c : Core) (rules : Array Rule) : Except Fault Rule :=
  match rules[c.rule]? with
  | some r => .ok r
  | none => .error (.ruleOutOfBounds rules.size c.rule)

/-- The symbol right after the dot, if there is one. -/
def marked? (c : Core) (rules : Array Rule) : Except Fault (Option Symbol) := do
  let r ← c.rule? rules
  .ok r.rhs[c.dot]?

/-- Whether the dot stands at the end of the body. -/
def isComplete (c : Core) (rules : Array Rule) : Except Fault Bool := do
  let r ← c.rule? rules
  .ok (r.rhs.length ≤ c.dot)

end Core

/-- A core with the terminals that may follow its rule. -/
structure Item where
  /-- The rule and the dot. -/
  core : Core
  /-- Whether the item is in the kernel of its state. -/
  isKernel : Bool
  /-- The lookaheads. -/
  lookaheads : SymbolSet := ∅
deriving BEq, ReflBEq, LawfulBEq

instance : DecidableEq Item := instDecidableEqOfLawfulBEq

namespace Item

/-- The text of an item of rule `r`: the rule with a star at the dot, and the lookaheads if there are any. -/
def textOf (i : Item) (r : Rule) (name : Naming) : String :=
  let before := (r.rhs.take i.core.dot).map fun s => " " ++ name s
  let after := (r.rhs.drop i.core.dot).map fun s => " " ++ name s
  let lookaheads :=
    if i.lookaheads.isEmpty then ""
    else " (" ++ ", ".intercalate (i.lookaheads.toList.map name) ++ ")"
  name r.lhs ++ " ::=" ++ String.join before ++ " *" ++ String.join after ++ lookaheads

/-- The text of an item, whose rule has to be in the list. -/
def text (i : Item) (rules : Array Rule) (name : Naming) : Except Fault String := do
  let r ← i.core.rule? rules
  .ok (i.textOf r name)

end Item

end Lalr
