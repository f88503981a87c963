import Lalr.Rule

/-!
# Defects

What can be wrong with a grammar, or with the table built from it.  Defects are reported together: one error
lists all of them.
-/

namespace Lalr

/-- The four symbols that every grammar sets apart. -/
inductive Role where
  | unknown
  | eof
  | init
  | start
deriving DecidableEq

/-- The name of a role in messages. -/
def Role.text : Role → String
  | .unknown => "Unknown"
  | .eof => "Eof"
  | .init => "Init"
  | .start => "Start"

/-- One problem of a grammar or of the table built from it. -/
inductive Defect where
  /-- The symbol of a role has another kind than the role asks for, or none. -/
  | wrongKind (role : Role) (symbol : Symbol) (expected : Kind)
  /-- A rule of `lhs` uses a symbol that has no kind. -/
  | undefinedSymbol (symbol lhs : Symbol)
  /-- A nonterminal is never defined. -/
  | noRules (symbol : Symbol)
  /-- The initial symbol has rules of its own. -/
  | initHasRules (symbol : Symbol)
  /-- A terminal has rules. -/
  | terminalHasRules (symbol : Symbol)
  /-- The number of the placeholder is declared. -/
  | reservedId (symbol : Symbol)
  /-- Several rules compete in a cell of the table. -/
  | reduceConflict (state : Nat) (symbol : Symbol) (rules : List Nat)
deriving DecidableEq

/-- The wording of a defect. -/
def Defect.message : Defect → String
  | wrongKind role symbol expected =>
    s!"the '{role.text}' symbol {symbol.text} must be a {expected.text}"
  | undefinedSymbol symbol lhs =>
    s!"symbol {symbol.text} used in a rule of {lhs.text} is not declared"
  | noRules symbol => s!"non-terminal {symbol.text} has no rules"
  | initHasRules symbol =>
    s!"the 'Init' symbol {symbol.text} cannot be the left-hand side of a grammar rule"
  | terminalHasRules symbol =>
    s!"terminal {symbol.text} cannot be the left-hand side of a grammar rule"
  | reservedId symbol => s!"symbol id {symbol.text} is reserved for table construction"
  | reduceConflict state symbol rules =>
    s!"reduce/reduce conflict in state {state} on symbol {symbol.text} between rules " ++
      ", ".intercalate (rules.map toString)

/-- All the defects found together. -/
structure GrammarError where
  /-- The defects, in the order in which they are reported. -/
  defects : List Defect
deriving DecidableEq

namespace GrammarError

/-- The wording of a grammar error: a count, then one line for each defect. -/
def message (e : GrammarError) : String :=
  let count := e.defects.length
  s!"invalid grammar ({count} problem" ++ (if count = 1 then "" else "s") ++ ")" ++
    String.join (e.defects.map fun d => "\n  - " ++ d.message)

/-- Fails when there is a defect to report. -/
def check (defects : List Defect) : Except GrammarError Unit :=
  if defects.isEmpty then .ok () else .error ⟨defects⟩

end GrammarError

end Lalr
