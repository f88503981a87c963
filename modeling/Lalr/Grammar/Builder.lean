import Lalr.Grammar

/-!
# Building grammars

A builder collects productions one at a time.  It keeps the left-hand sides in order of first mention, and
the bodies of one left-hand side in order of first addition; adding a body a second time changes nothing.
Unless kinds are declared, the left-hand sides together with the initial and the start symbol are the
nonterminals, and every other symbol in use is a terminal.
-/

namespace Lalr

/-- All the bodies of one left-hand side. -/
structure Production where
  /-- The symbol that is defined. -/
  lhs : Symbol
  /-- Its bodies, each once. -/
  bodies : List Body := []
deriving BEq, ReflBEq, LawfulBEq

instance : DecidableEq Production := instDecidableEqOfLawfulBEq

namespace Production

/-- Adds a body unless it is there already. -/
def insert (p : Production) (body : Body) : Production :=
  if body ∈ p.bodies then p else { p with bodies := p.bodies ++ [body] }

/-- The text of a production: its bodies separated by bars. -/
def text (p : Production) : String :=
  if p.bodies.isEmpty then s!"{p.lhs.text} (no rules)"
  else
    s!"{p.lhs.text} ::=" ++
      " |".intercalate (p.bodies.map fun b => if b.isEmpty then "" else " " ++ Body.text b)

end Production

/-- A grammar under construction. -/
structure Builder where
  /-- The terminal for unrecognised input. -/
  unknown : Symbol
  /-- The symbol of the augmenting rule. -/
  init : Symbol
  /-- The symbol that derives the language. -/
  start : Symbol
  /-- The productions so far, one for each left-hand side. -/
  productions : List Production := []
  /-- The declared kinds, if kinds are not to be inferred. -/
  declared : Option Kinds := none

namespace Builder

/-- The production of a left-hand side. -/
def production? (b : Builder) (lhs : Symbol) : Option Production :=
  b.productions.find? fun p => p.lhs == lhs

/-- Whether `lhs ::= body` has been added. -/
def hasRule (b : Builder) (lhs : Symbol) (body : Body) : Bool :=
  (b.production? lhs).any fun p => p.bodies.contains body

/-- Mentions a left-hand side, without adding a rule. -/
def define (b : Builder) (lhs : Symbol) : Builder :=
  if (b.production? lhs).isSome then b
  else { b with productions := b.productions ++ [{ lhs }] }

/-- Adds the rule `lhs ::= body`. -/
def add (b : Builder) (lhs : Symbol) (body : Body) : Builder :=
  { b with productions := (b.define lhs).productions.map fun p =>
      if p.lhs = lhs then p.insert body else p }

/-- Declares kinds in place of the inferred ones; of two entries for a symbol the last one counts. -/
def declare (b : Builder) (kinds : List (Symbol × Kind)) : Builder :=
  { b with declared := some (Std.ExtTreeMap.ofList kinds) }

/-- The rules added so far as pairs, left-hand side by left-hand side. -/
def pairs (b : Builder) : List (Symbol × Body) :=
  b.productions.flatMap fun p => p.bodies.map fun body => (p.lhs, body)

/-- The symbols that are mentioned, the ones set apart first. -/
def mentioned (b : Builder) : List Symbol :=
  [Symbol.eof, b.unknown, b.init, b.start] ++
    b.productions.flatMap fun p => p.lhs :: p.bodies.flatten

/-- The kind of a symbol as inferred from its use. -/
def inferKind (b : Builder) (s : Symbol) : Kind :=
  if s = b.init ∨ s = b.start ∨ (b.production? s).isSome then .nonterminal else .terminal

/-- The inferred kinds of the mentioned symbols. -/
def inferredKinds (b : Builder) : Kinds :=
  Std.ExtTreeMap.ofList (b.mentioned.map fun s => (s, b.inferKind s))

/-- The declared kinds, or the inferred ones. -/
def kinds (b : Builder) : Kinds :=
  b.declared.getD b.inferredKinds

/-- The grammar that has been built. -/
def toGrammar (b : Builder) : Grammar where
  unknown := b.unknown
  init := b.init
  start := b.start
  productions := b.pairs
  kinds := b.kinds

end Builder

end Lalr
