import Lalr.Parser

/-!
# Scripted contexts

A script is a context given by data.  Lists of rules say which tokens to drop or rename, and which symbols to
try for tokens that do not fit; nodes are written as text, and every call is recorded as an event.
-/

namespace Lalr

/-- Renames or drops tokens.  The parts that are given have to agree with the token. -/
structure FilterRule where
  /-- The symbol of the token. -/
  symbol : Option Symbol := none
  /-- The text of the token. -/
  text : Option String := none
  /-- The symbol to parse it as; nothing drops the token. -/
  replacement : Option Symbol := none

/-- Which symbol to try in place of one that does not fit. -/
inductive Substitute where
  /-- No symbol: give up. -/
  | nothing
  /-- A fixed symbol. -/
  | symbol (s : Symbol)
  /-- The symbol that was found. -/
  | found
  /-- The first of the expected symbols. -/
  | firstExpected
  /-- The last of the expected symbols. -/
  | lastExpected

/-- Answers tokens that do not fit.  The parts that are given have to agree with the rejection. -/
structure RecoveryRule where
  /-- The symbol that was found. -/
  found : Option Symbol := none
  /-- The text of the token. -/
  text : Option String := none
  /-- A symbol that has to be expected. -/
  expects : Option Symbol := none
  /-- The least number of nodes on the stack. -/
  minStack : Option Nat := none
  /-- The symbol to try. -/
  substitute : Substitute

/-- A call that a script has received. -/
inductive Event where
  /-- A token was shifted. -/
  | terminal (token : Token)
  /-- A rule was reduced with a number of children. -/
  | nonterminal (rule : Rule) (children : Nat)
  /-- The input was accepted. -/
  | accept
  /-- A token was dropped or renamed. -/
  | filter (symbol : Symbol) (text : String) (replacement : Option Symbol)
  /-- A token did not fit and was answered. -/
  | reject (rejection : Rejection String) (answer : Option Symbol)

/-- The rules of a scripted context and what it has recorded. -/
structure Script where
  /-- Which tokens to drop or rename; the first rule that agrees counts. -/
  filters : List FilterRule := []
  /-- How to answer tokens that do not fit; the first rule that agrees counts. -/
  recoveries : List RecoveryRule := []
  /-- The events, the last one first. -/
  recorded : List Event := []
  /-- The root of the accepted input. -/
  root : Option String := none

namespace FilterRule

/-- Whether a rule agrees with a token. -/
def agrees (r : FilterRule) (symbol : Symbol) (text : String) : Bool :=
  r.symbol.all (· = symbol) && r.text.all (· = text)

end FilterRule

namespace Substitute

/-- The symbol to try for a rejection. -/
def resolve (s : Substitute) (r : Rejection String) : Option Symbol :=
  match s with
  | nothing => none
  | symbol x => some x
  | found => some r.found
  | firstExpected => r.expected.head?
  | lastExpected => r.expected.getLast?

end Substitute

namespace RecoveryRule

/-- Whether a rule agrees with a rejection. -/
def agrees (rule : RecoveryRule) (r : Rejection String) : Bool :=
  rule.found.all (· = r.found) && rule.text.all (· = r.text) &&
    rule.expects.all r.expected.contains && rule.minStack.all (· ≤ r.stack.length)

end RecoveryRule

namespace Script

/-- Records an event. -/
def record (s : Script) (e : Event) : Script :=
  { s with recorded := e :: s.recorded }

/-- The recorded events in order, and the script without them. -/
def takeEvents (s : Script) : List Event × Script :=
  (s.recorded.reverse, { s with recorded := [] })

/-- The text of a token. -/
def terminalText (token : Token) : String :=
  s!"{token.symbol.id.toInt}:{token.text}@{token.position}"

/-- The text of a reduction. -/
def nonterminalText (rule : Rule) (children : List String) : String :=
  s!"[{rule.index}" ++ String.join (children.map fun c => " " ++ c) ++ "]"

/-- Answers a token before the table sees it. -/
def filter (symbol : Symbol) (text : String) (s : Script) : Option Symbol × Script :=
  match s.filters.find? fun r => r.agrees symbol text with
  | some r => (r.replacement, s.record (.filter symbol text r.replacement))
  | none => (some symbol, s)

/-- Answers a token that does not fit. -/
def reject (rejection : Rejection String) (s : Script) : Option Symbol × Script :=
  let answer := (s.recoveries.find? fun r => r.agrees rejection).bind fun r =>
    r.substitute.resolve rejection
  (answer, s.record (.reject rejection answer))

/-- The context of a script, with symbols named as given. -/
def context (name : Naming) : Context Script String where
  terminal token s := (terminalText token, s.record (.terminal token))
  nonterminal rule children s :=
    (nonterminalText rule children, s.record (.nonterminal rule children.length))
  accept root s := { s.record .accept with root := some root }
  reject := reject
  filter := filter
  name symbol _ := name symbol

end Script

end Lalr
