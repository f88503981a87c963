import Lalr.Automaton.Report

/-!
# Notices

The library says what it does through notices, which accompany its results.  A notice has a level and a
wording; a log holds the notices down to a chosen level.
-/

namespace Lalr

/-- How important a notice is. -/
inductive Level where
  | error
  | warn
  | info
  | debug
  | trace
deriving DecidableEq

namespace Level

/-- The rank of a level, the most important one first. -/
def rank : Level → Nat
  | error => 0
  | warn => 1
  | info => 2
  | debug => 3
  | trace => 4

/-- The name of a level in a log. -/
def text : Level → String
  | error => "ERROR"
  | warn => "WARN"
  | info => "INFO"
  | debug => "DEBUG"
  | trace => "TRACE"

end Level

/-- Something that happened while a table was built or run. -/
inductive Notice where
  /-- A grammar has been augmented. -/
  | grammarSize (symbols rules : Nat)
  /-- All the states have been found. -/
  | automatonSize (states : Nat)
  /-- All the links have been found. -/
  | linkCount (links : Nat)
  /-- The lookaheads have settled. -/
  | lookaheadsStable (passes : Nat)
  /-- A shift has won over a reduction. -/
  | shiftReduce (state : Nat) (symbol : Symbol) (target : Nat) (rule : Rule)
  /-- Accepting has won over a reduction. -/
  | acceptReduce (state : Nat) (rule : Rule)
  /-- Reductions have been merged. -/
  | reduceReduce (count : Nat)
  /-- The finished automaton. -/
  | automaton (verbose : Bool) (report : Report)
  /-- A shared table is being built. -/
  | sharedTable
  /-- A table is written out as a module. -/
  | emitting (actions rules : Nat) (name : String)
  /-- The parser has dropped a token. -/
  | skipped (name : String)
  /-- The parser cannot use a token. -/
  | rejected (position : Nat) (name : String) (state : Nat)
  /-- The parser tries another symbol for a token. -/
  | retrying (name : String)
  /-- The parser shifts. -/
  | shifting (state : Nat) (name : String) (target : Nat)
  /-- The parser reduces. -/
  | reducing (state rule target : Nat)
  /-- The parser accepts. -/
  | accepting (state : Nat)

namespace Notice

/-- The level of a notice. -/
def level : Notice → Level
  | grammarSize .. | automatonSize .. | linkCount .. | lookaheadsStable .. => .debug
  | shiftReduce .. | acceptReduce .. | reduceReduce .. => .warn
  | automaton verbose _ => if verbose then .info else .trace
  | sharedTable | emitting .. | rejected .. | retrying .. => .debug
  | skipped .. | shifting .. | reducing .. | accepting .. => .trace

/-- The wording of a notice. -/
def message : Notice → String
  | grammarSize symbols rules => s!"grammar has {symbols} symbols and {rules} rules"
  | automatonSize states => s!"LR(0) automaton has {states} states"
  | linkCount links => s!"{links} lookahead propagation links"
  | lookaheadsStable passes => s!"lookaheads stable after {passes} passes"
  | shiftReduce state symbol target rule =>
    s!"shift/reduce conflict in state {state} on {symbol.text}: " ++
      s!"shifting to state {target} instead of reducing rule {rule.text}"
  | acceptReduce state rule =>
    s!"accept/reduce conflict in state {state}: rule {rule.text} is never reduced"
  | reduceReduce count => s!"{count} reduce/reduce conflicts"
  | automaton _ report =>
    s!"LALR(1) automaton for start symbol {report.grammar.start.text}:\n" ++ report.text
  | sharedTable => "building shared table"
  | emitting actions rules name => s!"emitting {actions} actions and {rules} rules as module {name}"
  | skipped name => s!"skip {name}"
  | rejected position name state => s!"syntax error at {position}: found {name} in state {state}"
  | retrying name => s!"retrying as {name}"
  | shifting state name target => s!"state {state}: shift {name} to {target}"
  | reducing state rule target => s!"state {state}: reduce rule {rule}, goto {target}"
  | accepting state => s!"state {state}: accept"

/-- The notices at a level or above it. -/
def upTo (threshold : Level) (notices : List Notice) : List Notice :=
  notices.filter fun n => n.level.rank ≤ threshold.rank

end Notice

end Lalr
