import Lalr.Notice
import Lalr.Parser.Context
import Lalr.Parser.Error
import Lalr.Parser.Stack

/-!
# Parsers

A parser runs a table on tokens that are given one at a time.  Each token is first tried on the states alone:
the reductions it calls for are followed, without making nodes, until it would be shifted or accepted, or
does not fit.  Only a token that fits touches the stack, so a token that fails leaves it as it was.  A token
that does not fit is shown to the context, which may name another symbol to try in its place; no symbol is
tried twice.

A table that is not the outcome of a construction may reduce without end.  Therefore the functions that
follow reductions take a bound on their number, and report a fault when it is used up.
-/

namespace Lalr

/-! ### Trying a symbol on the states -/

namespace Table

/-- The rule by which an action reduces, which has to be listed. -/
def rule (t : Table) (n : Nat) : Except Fault Rule :=
  match t.rules[n]? with
  | some r => .ok r
  | none => .error (.unknownRule n)

/-- The state that follows a reduction which has uncovered `state`. -/
def gotoAfter (t : Table) (state : Nat) (r : Rule) : Except Fault Nat :=
  match t.action? state r.lhs with
  | some (.goto target) => .ok target
  | _ => .error (.noGoto state r)

/-- The path after the reduction by rule number `n`. -/
def reducePath (t : Table) (n : Nat) (p : Path) : Except Fault Path := do
  let r ← t.rule n
  match p.drop? r.rhs.length with
  | none => .error (.stackUnderflow r)
  | some q =>
    let target ← t.gotoAfter q.top r
    .ok (q.push target)

/-- Follows the reductions that a symbol calls for on a path whose depth has come up to `peak` so far.  The
result is the greatest depth up to the shift or the accept that ends them, or nothing when they end in a cell
without such an action. -/
def simulateFrom (t : Table) (symbol : Symbol) : Nat → Path → Nat → Except Fault (Option Nat)
  | 0, _, _ => .error .unsettled
  | fuel + 1, p, peak =>
    match t.action? p.top symbol with
    | some (.shift _) => .ok (some (max peak (p.depth + 1)))
    | some .accept => .ok (some peak)
    | some (.reduce n) => do
      let q ← t.reducePath n p
      simulateFrom t symbol fuel q (max peak q.depth)
    | _ => .ok none

/-- Tries a symbol on a path. -/
def simulate (t : Table) (fuel : Nat) (p : Path) (symbol : Symbol) : Except Fault (Option Nat) :=
  t.simulateFrom symbol fuel p p.depth

/-- The terminals that can be shifted or accepted on a path, in ascending order. -/
def expected (t : Table) (fuel : Nat) (p : Path) : Except Fault (List Symbol) := do
  let candidates := (t.row p.top).filterMap fun (symbol, action) =>
    match action with
    | .goto _ => none
    | _ => some symbol
  let tried ← candidates.mapM fun symbol => do
    let peak ← t.simulate fuel p symbol
    Except.ok (if peak.isSome then some symbol else none)
  .ok (tried.filterMap id)

end Table

/-! ### Parsers -/

/-- What has become of a token that did not fail. -/
inductive Progress where
  /-- The context has dropped it. -/
  | skipped
  /-- It is on the stack. -/
  | shifted
  /-- It has completed the input. -/
  | accepted
deriving DecidableEq

/-- What a parser has done so far. -/
structure Stats where
  /-- The tokens that were not dropped. -/
  tokens : Nat := 0
  /-- The tokens that were shifted. -/
  shifts : Nat := 0
  /-- The reductions. -/
  reductions : Nat := 0
  /-- The symbols tried in place of others. -/
  recoveries : Nat := 0
deriving DecidableEq

/-- A table being run, with nodes of type `N` made by a context with memory of type `σ`. -/
structure Parser (σ N : Type) where
  /-- The table. -/
  table : Table
  /-- The context. -/
  context : Context σ N
  /-- The memory of the context. -/
  memory : σ
  /-- The stack. -/
  stack : Stack N
  /-- The greatest depth that the stack may reach, or zero for any depth. -/
  limit : Nat := 0
  /-- Whether the parse is over. -/
  isFinished : Bool := false
  /-- What has been done. -/
  stats : Stats := {}

/-- How the processing of a token ends. -/
inductive Outcome where
  /-- The token has been used or dropped. -/
  | progress (p : Progress)
  /-- The token has been refused. -/
  | failed (e : ParseError)
  /-- The table or the bound on reductions has failed. -/
  | fault (f : Fault)
deriving DecidableEq

/-- A parser after a token, with the notices in the order in which they arose. -/
structure Step (σ N : Type) where
  /-- The parser. -/
  parser : Parser σ N
  /-- How the token has ended. -/
  outcome : Outcome
  /-- What happened on the way. -/
  notices : List Notice

namespace Parser

variable {σ N : Type}

/-- A parser at the start of a table, which has to be free of competing reductions. -/
def create (table : Table) (context : Context σ N) (memory : σ) : Except GrammarError (Parser σ N) := do
  table.checkDeterministic
  .ok { table, context, memory, stack := Stack.root table.start }

/-- The terminals that the parser can use next. -/
def expected (p : Parser σ N) (fuel : Nat) : Except Fault (List Symbol) :=
  p.table.expected fuel p.stack.path

/-- Reduces by rule number `n`: takes the nodes of its body off the stack and puts their parent on it. -/
def reduce (p : Parser σ N) (n : Nat) : Except Fault (Parser σ N × Notice) := do
  let r ← p.table.rule n
  match p.stack.popMany? r.rhs.length with
  | none => .error (.popRoot p.stack.rootState)
  | some (children, stack) =>
    let target ← p.table.gotoAfter stack.top r
    let (node, memory) := p.context.nonterminal r children p.memory
    let stats := { p.stats with reductions := p.stats.reductions + 1 }
    .ok ({ p with memory, stack := stack.push node target, stats },
      .reducing p.stack.top r.index target)

/-- Shifts a token into a state. -/
def shift (p : Parser σ N) (token : Token) (target : Nat) : Parser σ N :=
  let (node, memory) := p.context.terminal token p.memory
  let stats := { p.stats with shifts := p.stats.shifts + 1 }
  { p with memory, stack := p.stack.push node target, stats }

/-- Hands the only node on the stack to the context and ends the parse. -/
def accept (p : Parser σ N) : Except Fault (Parser σ N) :=
  match p.stack.pop? with
  | none => .error (.popRoot p.stack.top)
  | some (node, stack) =>
    if stack.isRoot then
      .ok { p with memory := p.context.accept node p.memory, stack, isFinished := true }
    else .error (.acceptLeaves p.stack.top stack.depth)

/-- Runs the table for a token that fits: reduces, then shifts or accepts.  The notices so far are given, and
collected, the last one first. -/
def advance (token : Token) : Nat → Parser σ N → List Notice → Step σ N
  | 0, p, log => ⟨p, .fault .unsettled, log.reverse⟩
  | fuel + 1, p, log =>
    let state := p.stack.top
    match p.table.action? state token.symbol with
    | some (.shift target) =>
      let notice := .shifting state (p.context.name token.symbol p.memory) target
      ⟨p.shift token target, .progress .shifted, (notice :: log).reverse⟩
    | some (.reduce n) =>
      match p.reduce n with
      | .error f => ⟨p, .fault f, log.reverse⟩
      | .ok (q, notice) => advance token fuel q (notice :: log)
    | some .accept =>
      match p.accept with
      | .error f => ⟨p, .fault f, (.accepting state :: log).reverse⟩
      | .ok q => ⟨q, .progress .accepted, (.accepting state :: log).reverse⟩
    | action => ⟨p, .fault (.noMove token.symbol state action), log.reverse⟩

/-- Tries the symbol of a token and, as long as the context answers with symbols that have not been tried,
other symbols in its place.  The number of symbols bounds the number of attempts. -/
def attempt (fuel : Nat) : Nat → List Symbol → Token → Parser σ N → List Notice → Step σ N
  | 0, _, _, p, log => ⟨p, .fault .unsettled, log.reverse⟩
  | attempts + 1, tried, token, p, log =>
    match p.table.simulate fuel p.stack.path token.symbol with
    | .error f => ⟨p, .fault f, log.reverse⟩
    | .ok (some peak) =>
      if 0 < p.limit ∧ p.limit < peak then
        ⟨{ p with isFinished := true }, .failed (.stackOverflow p.limit), log.reverse⟩
      else advance token fuel p log
    | .ok none =>
      match p.expected fuel with
      | .error f => ⟨p, .fault f, log.reverse⟩
      | .ok expected =>
        let name := p.context.name token.symbol p.memory
        let log := .rejected token.position name p.stack.top :: log
        let (answer, memory) := p.context.reject
          { expected
            found := token.symbol
            text := token.text
            position := token.position
            stack := p.stack.nodesFromRoot } p.memory
        match answer.filter fun symbol => !tried.contains symbol with
        | some symbol =>
          let stats := { p.stats with recoveries := p.stats.recoveries + 1 }
          attempt fuel attempts (tried ++ [symbol]) { token with symbol } { p with memory, stats }
            (.retrying (p.context.name symbol memory) :: log)
        | none =>
          ⟨{ p with memory, isFinished := true }, .failed (.unexpected expected token.symbol), log.reverse⟩

/-- The number of symbols there are. -/
def symbolCount : Nat := UInt32.size

/-- Processes a token, where no more than `fuel` reductions are followed at a time. -/
def process (p : Parser σ N) (fuel : Nat) (token : Token) : Step σ N :=
  if p.isFinished then ⟨p, .failed .finished, []⟩
  else
    let (answer, memory) := p.context.filter token.symbol token.text p.memory
    match answer with
    | none =>
      ⟨{ p with memory }, .progress .skipped, [.skipped (p.context.name token.symbol memory)]⟩
    | some symbol =>
      let stats := { p.stats with tokens := p.stats.tokens + 1 }
      attempt fuel symbolCount [symbol] { token with symbol } { p with memory, stats } []

/-- Processes the end of the input. -/
def finish (p : Parser σ N) (fuel position : Nat) : Step σ N :=
  p.process fuel (Token.eof position)

end Parser

end Lalr
