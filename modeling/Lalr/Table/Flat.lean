import Lalr.Fault
import Lalr.Table

/-!
# Flat tables

A flat table holds a table in plain arrays of words, so that it can be stored in static data and read back
without the construction.  The actions are four parallel arrays, one entry for each cell.  The value of an
entry for competing reductions is an offset into `reduceMulti`, where the number of rules is followed by the
rules.  The bodies of the rules are joined in `ruleRhs`; rule `i` covers the part between the offsets `i` and
`i + 1` of `ruleRhsOffsets`.

`Table.toFlat` writes the cells in ascending order.  `FlatTable.toTable` accepts entries in any order and
reports inconsistent data.
-/

namespace Lalr

/-- A table as arrays of words. -/
structure FlatTable where
  /-- The state in which a parse begins. -/
  startState : UInt32
  /-- The state of each entry. -/
  actionStates : List UInt32 := []
  /-- The symbol of each entry. -/
  actionSymbols : List Int32 := []
  /-- The kind of action of each entry. -/
  actionKinds : List UInt8 := []
  /-- The state, rule or offset of each entry. -/
  actionValues : List UInt32 := []
  /-- Lists of competing rules, each preceded by its length. -/
  reduceMulti : List UInt32 := []
  /-- The left-hand side of each rule. -/
  ruleLhs : List Int32 := []
  /-- Where the body of each rule begins, and where the last one ends. -/
  ruleRhsOffsets : List UInt32 := []
  /-- The bodies of all rules. -/
  ruleRhs : List Int32 := []
deriving BEq, ReflBEq, LawfulBEq

instance : DecidableEq FlatTable := instDecidableEqOfLawfulBEq

/-- One entry of a flat table. -/
structure FlatEntry where
  /-- The state of the cell. -/
  state : UInt32
  /-- The symbol of the cell. -/
  symbol : Int32
  /-- The kind of the action. -/
  kind : UInt8
  /-- The state, rule or offset of the action. -/
  value : UInt32
deriving BEq, ReflBEq, LawfulBEq

instance : DecidableEq FlatEntry := instDecidableEqOfLawfulBEq

/-- What is inconsistent in flat data. -/
inductive FlatError where
  /-- An array has a length that does not fit the others. -/
  | lengthMismatch (array : String)
  /-- An entry has an unknown kind of action. -/
  | badKind (entry : Nat) (kind : UInt8)
  /-- A number refers to something that does not exist. -/
  | outOfRange (what : String) (value : Nat)
  /-- Two entries describe the same cell. -/
  | duplicateAction (state : Nat) (symbol : Symbol)
deriving DecidableEq

/-- The wording of a flat data error. -/
def FlatError.message : FlatError → String
  | lengthMismatch array => s!"flat table array '{array}' has the wrong length"
  | badKind entry kind => s!"unknown action kind {kind.toNat} at entry {entry}"
  | outOfRange what value => s!"'{what}' value {value} is out of range"
  | duplicateAction state symbol =>
    s!"duplicate action for state {state} and symbol {symbol.text}"

/-! ### Writing -/

namespace FlatTable

/-- The kind of accepting. -/
def acceptKind : UInt8 := 0

/-- The kind of a shift. -/
def shiftKind : UInt8 := 1

/-- The kind of a reduction. -/
def reduceKind : UInt8 := 2

/-- The kind of competing reductions. -/
def reduceMultiKind : UInt8 := 3

/-- The kind of a goto. -/
def gotoKind : UInt8 := 4

/-- A number as a word of 32 bits. -/
def word (n : Nat) : Except Fault UInt32 :=
  if n < UInt32.size then .ok (UInt32.ofNat n) else .error (.indexTooLarge n)

/-- The kind and value of an action, and what it adds to the lists of competing rules, which have the length
`offset` so far. -/
def encodeAction (offset : Nat) : Action → Except Fault (UInt8 × UInt32 × List UInt32)
  | .accept => .ok (acceptKind, 0, [])
  | .shift state => do
    let value ← word state
    .ok (shiftKind, value, [])
  | .reduce rule => do
    let value ← word rule
    .ok (reduceKind, value, [])
  | .reduceMulti rules => do
    let value ← word offset
    let count ← word rules.size
    let numbers ← rules.toList.mapM word
    .ok (reduceMultiKind, value, count :: numbers)
  | .goto state => do
    let value ← word state
    .ok (gotoKind, value, [])

/-- The entries of cells and their lists of competing rules, the first of which begins at `offset`. -/
def encodeCells : Nat → List (Cell × Action) → Except Fault (List FlatEntry × List UInt32)
  | _, [] => .ok ([], [])
  | offset, (cell, action) :: rest => do
    let (kind, value, numbers) ← encodeAction offset action
    let state ← word cell.state
    let (entries, multi) ← encodeCells (offset + numbers.length) rest
    .ok (⟨state, cell.symbol.id, kind, value⟩ :: entries, numbers ++ multi)

/-- Where the bodies of rules end, the first of which begins at `offset`. -/
def encodeOffsets : Nat → List Rule → Except Fault (List UInt32)
  | _, [] => .ok []
  | offset, r :: rest => do
    let next ← word (offset + r.rhs.length)
    let offsets ← encodeOffsets (offset + r.rhs.length) rest
    .ok (next :: offsets)

end FlatTable

/-- The flat form of a table. -/
def Table.toFlat (t : Table) : Except Fault FlatTable := do
  let startState ← FlatTable.word t.start
  let (entries, reduceMulti) ← FlatTable.encodeCells 0 t.cells.toList
  let offsets ← FlatTable.encodeOffsets 0 t.rules.toList
  .ok {
    startState
    actionStates := entries.map FlatEntry.state
    actionSymbols := entries.map FlatEntry.symbol
    actionKinds := entries.map FlatEntry.kind
    actionValues := entries.map FlatEntry.value
    reduceMulti
    ruleLhs := t.rules.toList.map fun r => r.lhs.id
    ruleRhsOffsets := 0 :: offsets
    ruleRhs := t.rules.toList.flatMap fun r => r.rhs.map Symbol.id }

/-! ### Reading -/

namespace FlatTable

/-- The entries, one for each position that all four arrays have. -/
def entries (f : FlatTable) : List FlatEntry :=
  (f.actionStates.zip (f.actionSymbols.zip (f.actionKinds.zip f.actionValues))).map
    fun (state, symbol, kind, value) => ⟨state, symbol, kind, value⟩

/-- One more than the largest state that occurs. -/
def stateCount (f : FlatTable) : Nat :=
  f.actionStates.foldl (fun count s => max count (s.toNat + 1)) (f.startState.toNat + 1)

/-- A word as an index below a limit. -/
def index (what : String) (value : UInt32) (limit : Nat) : Except FlatError Nat :=
  if value.toNat < limit then .ok value.toNat else .error (.outOfRange what value.toNat)

/-- The rules from number `n` on, whose bodies begin at `start`, and where the last body ends. -/
def decodeRules (rhs : List Int32) :
    Nat → Nat → List Int32 → List UInt32 → Except FlatError (List Rule × Nat)
  | n, start, lhs :: lhss, lo :: hi :: offsets =>
    if lo.toNat ≠ start ∨ hi.toNat < lo.toNat ∨ rhs.length < hi.toNat then
      .error (.outOfRange "rule_rhs_offsets" hi.toNat)
    else do
      let (rules, stop) ← decodeRules rhs (n + 1) hi.toNat lhss (hi :: offsets)
      let body := (rhs.drop lo.toNat).take (hi.toNat - lo.toNat)
      .ok (⟨n, ⟨lhs⟩, body.map Symbol.mk⟩ :: rules, stop)
  | _, start, _, _ => .ok ([], start)

/-- The competing rules listed at an offset. -/
def decodeMulti (f : FlatTable) (value : UInt32) : Except FlatError RuleSet := do
  let offset ← index "reduce_multi offset" value f.reduceMulti.length
  match f.reduceMulti.drop offset with
  | [] => .error (.outOfRange "reduce_multi offset" value.toNat)
  | count :: rest =>
    if rest.length < count.toNat then .error (.lengthMismatch "reduce_multi")
    else do
      let rules ← (rest.take count.toNat).mapM fun r => index "reduce rule" r f.ruleLhs.length
      .ok (Std.ExtTreeSet.ofList rules)

/-- The action of an entry at a position, in a table with the given number of states. -/
def decodeAction (f : FlatTable) (states position : Nat) (e : FlatEntry) : Except FlatError Action :=
  if e.kind = acceptKind then .ok .accept
  else if e.kind = shiftKind then
    Action.shift <$> index "shift state" e.value states
  else if e.kind = reduceKind then
    Action.reduce <$> index "reduce rule" e.value f.ruleLhs.length
  else if e.kind = reduceMultiKind then
    Action.reduceMulti <$> f.decodeMulti e.value
  else if e.kind = gotoKind then
    Action.goto <$> index "goto state" e.value states
  else .error (.badKind position e.kind)

/-- Adds the entries from a position on to the cells read before them. -/
def decodeEntries (f : FlatTable) (states : Nat) :
    Nat → List FlatEntry → Std.ExtTreeMap Cell Action → Except FlatError (Std.ExtTreeMap Cell Action)
  | _, [], cells => .ok cells
  | position, e :: rest, cells => do
    let action ← f.decodeAction states position e
    let cell : Cell := ⟨e.state.toNat, ⟨e.symbol⟩⟩
    if cell ∈ cells then .error (.duplicateAction cell.state cell.symbol)
    else decodeEntries f states (position + 1) rest (cells.insert cell action)

/-- The table of flat data, which have to be consistent. -/
def toTable (f : FlatTable) : Except FlatError Table := do
  if f.ruleRhsOffsets.length ≠ f.ruleLhs.length + 1 then
    .error (.lengthMismatch "rule_rhs_offsets")
  let (rules, stop) ← decodeRules f.ruleRhs 0 0 f.ruleLhs f.ruleRhsOffsets
  if stop ≠ f.ruleRhs.length then .error (.lengthMismatch "rule_rhs")
  if f.actionSymbols.length ≠ f.actionStates.length then
    .error (.lengthMismatch "action_symbols")
  if f.actionKinds.length ≠ f.actionStates.length then .error (.lengthMismatch "action_kinds")
  if f.actionValues.length ≠ f.actionStates.length then .error (.lengthMismatch "action_values")
  let cells ← f.decodeEntries f.stateCount 0 f.entries ∅
  .ok { start := f.startState.toNat, cells, rules := rules.toArray }

end FlatTable

end Lalr
