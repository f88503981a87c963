import Lalr.Proofs.Calls
import Lalr.Proofs.Rows

/-!
# Parsers that run in step

Two parsers may differ in what they carry without differing in what they do: in the numbers of their states and
rules, in the nodes on their stacks, in the memory of their contexts.  A `Translation` says how all this is carried
over from a first parser to a second one, and it is faithful (`Translation.Faithful`) when the second table is the
first one with other numbers and when the second context does to what has been carried over what the first one
does.

A faithful translation can be made before a call or after it (`Translation.process_carry`), and so also before or
after a sequence of calls (`Translation.after_carry`): both parsers go through corresponding states and answer
every call in the same way.  Each function of the parser has one lemma for this.
-/

namespace Lalr

/-! ### Other numbers -/

/-- Other numbers for the states and the rules of a table. -/
structure Renumbering where
  /-- The number of a state. -/
  state : Nat → Nat
  /-- The number of a rule. -/
  rule : Nat → Nat

/-- The numbers as they are. -/
def Renumbering.refl : Renumbering := ⟨id, id⟩

/-- The set of the images of rule numbers. -/
def RuleSet.map (f : Nat → Nat) (rules : RuleSet) : RuleSet := Std.ExtTreeSet.ofList (rules.toList.map f)

/-- The images of rule numbers are the members of the image. -/
lemma RuleSet.mem_map {f : Nat → Nat} {rules : RuleSet} {n : Nat} :
    n ∈ rules.map f ↔ ∃ k ∈ rules, f k = n := by
  simp [RuleSet.map]

/-- The rule with another number. -/
def Rule.renumber (ν : Renumbering) (r : Rule) : Rule := { r with index := ν.rule r.index }

/-- The action with other numbers. -/
def Action.renumber (ν : Renumbering) : Action → Action
  | .accept => .accept
  | .shift m => .shift (ν.state m)
  | .reduce k => .reduce (ν.rule k)
  | .reduceMulti rules => .reduceMulti (rules.map ν.rule)
  | .goto m => .goto (ν.state m)

/-- A fault that a parser may report, with other numbers; the other faults stay as they are. -/
def Fault.renumber (ν : Renumbering) : Fault → Fault
  | .unknownRule k => .unknownRule (ν.rule k)
  | .stackUnderflow r => .stackUnderflow (r.renumber ν)
  | .popRoot n => .popRoot (ν.state n)
  | .acceptLeaves n frames => .acceptLeaves (ν.state n) frames
  | .noGoto n r => .noGoto (ν.state n) (r.renumber ν)
  | .noMove x n action => .noMove x (ν.state n) (action.map (Action.renumber ν))
  | other => other

/-- The outcome with other numbers. -/
def Outcome.renumber (ν : Renumbering) : Outcome → Outcome
  | .fault f => .fault (f.renumber ν)
  | other => other

/-- A notice of a parser with other numbers; the notices of a construction stay as they are. -/
def Notice.renumber (ν : Renumbering) : Notice → Notice
  | .rejected position name n => .rejected position name (ν.state n)
  | .shifting n name m => .shifting (ν.state n) name (ν.state m)
  | .reducing n k m => .reducing (ν.state n) (ν.rule k) (ν.state m)
  | .accepting n => .accepting (ν.state n)
  | other => other

/-- A result that may be a fault, with its value carried over and with other numbers in the fault. -/
def Renumbering.result {α β : Type} (ν : Renumbering) (f : α → β) : Except Fault α → Except Fault β
  | .ok a => .ok (f a)
  | .error fault => .error (fault.renumber ν)

/-- A computation that goes on with the value of a result can be carried over step by step. -/
lemma Renumbering.result_bind {α β γ δ : Type} {ν : Renumbering} {f : α → β} {g : γ → δ}
    {k : α → Except Fault γ} {k' : β → Except Fault δ} (h : ∀ a, k' (f a) = ν.result g (k a))
    (x : Except Fault α) : ν.result f x >>= k' = ν.result g (x >>= k) := by
  cases x with
  | error fault => rfl
  | ok a => exact h a

/-- A traversal can be carried over element by element. -/
lemma Renumbering.mapM_result {α β : Type} (ν : Renumbering) (f : α → Except Fault β) (xs : List α) :
    (xs.mapM fun x => ν.result id (f x)) = ν.result id (xs.mapM f) := by
  induction xs with
  | nil => rfl
  | cons x xs ih =>
    rw [List.mapM_cons, List.mapM_cons, ih]
    refine result_bind (fun y => ?_) _
    refine result_bind (fun ys => ?_) _
    rfl

/-- The rule as it is. -/
@[simp] lemma Rule.renumber_refl (r : Rule) : r.renumber .refl = r := rfl

/-- The set of rules as it is. -/
@[simp] lemma RuleSet.map_id (rules : RuleSet) : rules.map id = rules := by
  refine Std.ExtTreeSet.ext_mem fun k => ?_
  simp [RuleSet.mem_map]

/-- The action as it is. -/
@[simp] lemma Action.renumber_refl (action : Action) : action.renumber .refl = action := by
  cases action with
  | reduceMulti rules => simp [renumber, Renumbering.refl]
  | _ => rfl

/-- The fault as it is. -/
@[simp] lemma Fault.renumber_refl (fault : Fault) : fault.renumber .refl = fault := by
  cases fault with
  | noMove x n action =>
    rw [renumber, funext Action.renumber_refl, Option.map_id']
    rfl
  | _ => rfl

/-- The outcome as it is. -/
@[simp] lemma Outcome.renumber_refl (outcome : Outcome) : outcome.renumber .refl = outcome := by
  cases outcome with
  | fault f => exact congrArg Outcome.fault f.renumber_refl
  | _ => rfl

/-- The notice as it is. -/
@[simp] lemma Notice.renumber_refl (notice : Notice) : notice.renumber .refl = notice := by
  cases notice <;> rfl

/-! ### Stacks -/

namespace Path

variable (φ : Nat → Nat)

/-- The path with other numbers for its states. -/
def renumber (p : Path) : Path where
  top := φ p.top
  below := p.below.map φ
  depth := p.depth
  depth_eq := by rw [List.length_map, p.depth_eq]

@[simp] lemma top_renumber (p : Path) : (p.renumber φ).top = φ p.top := rfl

@[simp] lemma renumber_id (p : Path) : p.renumber id = p := by
  ext1
  · rfl
  · exact List.map_id _

/-- Leaving a state does not depend on the numbers. -/
lemma pop?_renumber (p : Path) : (p.renumber φ).pop? = p.pop?.map (renumber φ) := by
  obtain ⟨top, below, depth, hd⟩ := p
  cases below with
  | nil => rfl
  | cons state below => rfl

/-- Leaving several states does not depend on the numbers. -/
lemma drop?_renumber (n : Nat) (p : Path) : (p.renumber φ).drop? n = (p.drop? n).map (renumber φ) := by
  induction n generalizing p with
  | zero => rfl
  | succ n ih =>
    rw [drop?, drop?, pop?_renumber]
    cases p.pop? with
    | none => rfl
    | some q => exact ih q

end Path

namespace Stack

variable {N M : Type} (φ : Nat → Nat) (f : N → M)

/-- The stack with other numbers for its states and with the images of its nodes. -/
def translate (s : Stack N) : Stack M where
  path := s.path.renumber φ
  nodes := s.nodes.map f
  length_nodes := by rw [List.length_map, s.length_nodes, Path.renumber, List.length_map]

@[simp] lemma path_translate (s : Stack N) : (s.translate φ f).path = s.path.renumber φ := rfl

@[simp] lemma top_translate (s : Stack N) : (s.translate φ f).top = φ s.top := rfl

@[simp] lemma isRoot_translate (s : Stack N) : (s.translate φ f).isRoot = s.isRoot := List.isEmpty_map

@[simp] lemma nodesFromRoot_translate (s : Stack N) :
    (s.translate φ f).nodesFromRoot = s.nodesFromRoot.map f :=
  List.map_reverse.symm

@[simp] lemma translate_push (s : Stack N) (node : N) (m : Nat) :
    (s.push node m).translate φ f = (s.translate φ f).push (f node) (φ m) := rfl

@[simp] lemma rootState_translate (s : Stack N) : (s.translate φ f).rootState = φ s.rootState := by
  obtain ⟨⟨top, below, depth, hd⟩, nodes, hn⟩ := s
  change (below.map φ).getLastD (φ top) = φ (below.getLastD top)
  rw [List.getLastD_eq_getLast?, List.getLastD_eq_getLast?, List.getLast?_map]
  cases below.getLast? <;> rfl

@[simp] lemma translate_id (s : Stack N) : s.translate id id = s :=
  Stack.ext (Path.renumber_id s.path) (List.map_id s.nodes)

/-- Popping what has been carried over carries over what is popped. -/
@[simp] lemma pop?_translate (s : Stack N) :
    (s.translate φ f).pop? = s.pop?.map (Prod.map f (translate φ f)) := by
  obtain ⟨⟨top, below, depth, hd⟩, nodes, hn⟩ := s
  cases below with
  | nil => cases nodes <;> rfl
  | cons state below =>
    cases nodes with
    | nil => simp at hn
    | cons node nodes => rfl

/-- Popping several frames carries over the nodes that are popped. -/
lemma popInto?_translate (n : Nat) (children : List N) (s : Stack N) :
    (s.translate φ f).popInto? n (children.map f) =
      (s.popInto? n children).map (Prod.map (List.map f) (translate φ f)) := by
  induction n generalizing children s with
  | zero => rfl
  | succ n ih =>
    rw [popInto?, popInto?, pop?_translate]
    cases s.pop? with
    | none => rfl
    | some r => exact ih (r.1 :: children) r.2

/-- The nodes of a body are carried over together. -/
@[simp] lemma popMany?_translate (n : Nat) (s : Stack N) :
    (s.translate φ f).popMany? n = (s.popMany? n).map (Prod.map (List.map f) (translate φ f)) :=
  popInto?_translate φ f n [] s

end Stack

/-! ### Tables -/

/-- The second table is the first one with other numbers for states and rules. -/
structure Table.Renumbers (ν : Renumbering) (t u : Table) : Prop where
  start : u.start = ν.state t.start
  action? : ∀ n x, u.action? (ν.state n) x = (t.action? n x).map (Action.renumber ν)
  rules : ∀ k : Nat, u.rules[ν.rule k]? = t.rules[k]?.map (Rule.renumber ν)

namespace Table

/-- A table is itself with the numbers as they are. -/
lemma Renumbers.refl (t : Table) : t.Renumbers .refl t where
  start := rfl
  action? n x := by
    rw [funext Action.renumber_refl, Option.map_id']
    rfl
  rules k := by
    change _ = t.rules[k]?.map id
    rw [Option.map_id]
    rfl

namespace Renumbers

variable {ν : Renumbering} {t u : Table} (h : t.Renumbers ν u)
include h

/-- Rules are found under their other numbers. -/
lemma rule (k : Nat) : u.rule (ν.rule k) = ν.result (Rule.renumber ν) (t.rule k) := by
  unfold Table.rule
  rw [h.rules]
  cases t.rules[k]? <;> rfl

/-- A reduction goes to the corresponding state. -/
lemma gotoAfter (n : Nat) (r : Rule) :
    u.gotoAfter (ν.state n) (r.renumber ν) = ν.result ν.state (t.gotoAfter n r) := by
  have hlhs : (r.renumber ν).lhs = r.lhs := rfl
  unfold Table.gotoAfter
  rw [hlhs, h.action?]
  cases t.action? n r.lhs with
  | none => rfl
  | some action => cases action <;> rfl

/-- Reducing a path does not depend on the numbers. -/
lemma reducePath (k : Nat) (p : Path) :
    u.reducePath (ν.rule k) (p.renumber ν.state) = ν.result (Path.renumber ν.state) (t.reducePath k p) := by
  unfold Table.reducePath
  rw [h.rule]
  refine Renumbering.result_bind (fun r => ?_) _
  have hlength : (r.renumber ν).rhs.length = r.rhs.length := rfl
  rw [hlength, Path.drop?_renumber]
  cases p.drop? r.rhs.length with
  | none => rfl
  | some q =>
    simp only [Option.map_some, Path.top_renumber, h.gotoAfter]
    refine Renumbering.result_bind (fun m => ?_) _
    rfl

/-- Trying a symbol does not depend on the numbers. -/
lemma simulateFrom (x : Symbol) (fuel : Nat) (p : Path) (peak : Nat) :
    u.simulateFrom x fuel (p.renumber ν.state) peak = ν.result id (t.simulateFrom x fuel p peak) := by
  induction fuel generalizing p peak with
  | zero => rfl
  | succ fuel ih =>
    rw [Table.simulateFrom, Table.simulateFrom, Path.top_renumber, h.action?]
    cases t.action? p.top x with
    | none => rfl
    | some action =>
      cases action with
      | reduce k =>
        simp only [Option.map_some, Action.renumber, h.reducePath]
        exact Renumbering.result_bind (fun q => ih q _) _
      | _ => rfl

/-- Trying a symbol on a path does not depend on the numbers. -/
lemma simulate (fuel : Nat) (p : Path) (x : Symbol) :
    u.simulate fuel (p.renumber ν.state) x = ν.result id (t.simulate fuel p x) :=
  h.simulateFrom x fuel p p.depth

/-- The symbols that have to be tried do not depend on the numbers. -/
lemma candidates (n : Nat) : u.candidates (ν.state n) = t.candidates n := by
  refine eq_of_pairwise_id_lt (u.pairwise_candidates _) (t.pairwise_candidates n) fun x => ?_
  rw [mem_candidates, mem_candidates, h.action?]
  cases t.action? n x with
  | none => simp
  | some action => cases action <;> simp [Action.renumber]

/-- The symbols that fit do not depend on the numbers. -/
lemma expected (fuel : Nat) (p : Path) :
    u.expected fuel (p.renumber ν.state) = ν.result id (t.expected fuel p) := by
  have htrial (x : Symbol) :
      (do let peak ← u.simulate fuel (p.renumber ν.state) x; Except.ok (if peak.isSome then some x else none)) =
        ν.result id (do let peak ← t.simulate fuel p x; Except.ok (if peak.isSome then some x else none)) := by
    rw [h.simulate]
    refine Renumbering.result_bind (fun peak => ?_) _
    rfl
  change (u.candidates (ν.state p.top)).mapM _ >>= _ = ν.result id ((t.candidates p.top).mapM _ >>= _)
  rw [h.candidates, funext htrial, Renumbering.mapM_result]
  refine Renumbering.result_bind (fun tried => ?_) _
  rfl

end Renumbers

end Table

/-! ### Translations of parsers -/

/-- The rejection with other nodes on the stack. -/
def Rejection.map {N M : Type} (f : N → M) (r : Rejection N) : Rejection M where
  expected := r.expected
  found := r.found
  text := r.text
  position := r.position
  stack := r.stack.map f

/-- How a parser is carried over to another table and another context. -/
structure Translation (σ N τ M : Type) where
  /-- The other numbers. -/
  numbers : Renumbering
  /-- What becomes of a node. -/
  node : N → M
  /-- What becomes of the memory. -/
  memory : σ → τ
  /-- The other table. -/
  table : Table
  /-- The other context. -/
  context : Context τ M

namespace Translation

variable {σ N τ M : Type} (T : Translation σ N τ M)

/-- The other table has the actions of the first one under other numbers, and the other context does to the nodes
and the memory that have been carried over what the first one does. -/
structure Faithful (t : Table) (c : Context σ N) : Prop where
  table : t.Renumbers T.numbers T.table
  terminal : ∀ token memory,
    T.context.terminal token (T.memory memory) = Prod.map T.node T.memory (c.terminal token memory)
  nonterminal : ∀ (r : Rule) children memory,
    T.context.nonterminal (r.renumber T.numbers) (children.map T.node) (T.memory memory) =
      Prod.map T.node T.memory (c.nonterminal r children memory)
  accept : ∀ node memory, T.context.accept (T.node node) (T.memory memory) = T.memory (c.accept node memory)
  reject : ∀ rejection memory,
    T.context.reject (rejection.map T.node) (T.memory memory) = Prod.map id T.memory (c.reject rejection memory)
  filter : ∀ symbol text memory,
    T.context.filter symbol text (T.memory memory) = Prod.map id T.memory (c.filter symbol text memory)
  name : ∀ symbol memory, T.context.name symbol (T.memory memory) = c.name symbol memory

/-- The parser carried over. -/
def carry (p : Parser σ N) : Parser τ M where
  table := T.table
  context := T.context
  memory := T.memory p.memory
  stack := p.stack.translate T.numbers.state T.node
  limit := p.limit
  isFinished := p.isFinished
  stats := p.stats

/-- The step carried over. -/
def step (s : Step σ N) : Step τ M where
  parser := T.carry s.parser
  outcome := s.outcome.renumber T.numbers
  notices := s.notices.map (Notice.renumber T.numbers)

@[simp] lemma table_carry (p : Parser σ N) : (T.carry p).table = T.table := rfl

@[simp] lemma context_carry (p : Parser σ N) : (T.carry p).context = T.context := rfl

@[simp] lemma memory_carry (p : Parser σ N) : (T.carry p).memory = T.memory p.memory := rfl

@[simp] lemma stack_carry (p : Parser σ N) :
    (T.carry p).stack = p.stack.translate T.numbers.state T.node := rfl

variable {T} {p : Parser σ N} (h : T.Faithful p.table p.context)
include h

/-- Reducing what has been carried over carries over what is reduced. -/
lemma reduce_carry (k : Nat) :
    (T.carry p).reduce (T.numbers.rule k) =
      T.numbers.result (Prod.map T.carry (Notice.renumber T.numbers)) (p.reduce k) := by
  unfold Parser.reduce
  rw [table_carry, h.table.rule]
  refine Renumbering.result_bind (fun r => ?_) _
  have hlength : (r.renumber T.numbers).rhs.length = r.rhs.length := rfl
  rw [hlength, stack_carry, Stack.popMany?_translate]
  cases p.stack.popMany? r.rhs.length with
  | none => simp [Renumbering.result, Fault.renumber]
  | some popped =>
    simp only [Option.map_some, Prod.map, Stack.top_translate, h.table.gotoAfter]
    refine Renumbering.result_bind (fun m => ?_) _
    simp only [context_carry, memory_carry, h.nonterminal]
    rfl

/-- Shifting onto what has been carried over carries over what is shifted. -/
lemma shift_carry (token : Token) (m : Nat) :
    (T.carry p).shift token (T.numbers.state m) = T.carry (p.shift token m) := by
  simp [Parser.shift, carry, h.terminal]

/-- Accepting what has been carried over carries over what is accepted. -/
lemma accept_carry : (T.carry p).accept = T.numbers.result T.carry p.accept := by
  unfold Parser.accept
  rw [stack_carry, Stack.pop?_translate]
  cases p.stack.pop? with
  | none => rfl
  | some popped =>
    simp only [Option.map_some, Prod.map, Stack.isRoot_translate]
    cases popped.2.isRoot with
    | false => rfl
    | true => simp [Renumbering.result, carry, h.accept]

/-- Carrying a token through takes both parsers the same way. -/
lemma advance_carry (token : Token) (fuel : Nat) (log : List Notice) :
    Parser.advance token fuel (T.carry p) (log.map (Notice.renumber T.numbers)) =
      T.step (Parser.advance token fuel p log) := by
  induction fuel generalizing p log with
  | zero => simp [Parser.advance, step, Outcome.renumber, Fault.renumber]
  | succ fuel ih =>
    rw [Parser.advance, Parser.advance]
    simp only [table_carry, stack_carry, Stack.top_translate, h.table.action?]
    cases p.table.action? p.stack.top token.symbol with
    | none => simp [step, Outcome.renumber, Fault.renumber]
    | some action =>
      cases action with
      | shift m =>
        simp [Action.renumber, shift_carry h, h.name, step, Outcome.renumber, Notice.renumber]
      | reduce k =>
        simp only [Option.map_some, Action.renumber, reduce_carry h]
        cases hreduce : p.reduce k with
        | error fault => simp [Renumbering.result, step, Outcome.renumber]
        | ok reduced =>
          obtain ⟨-, -, -, -, -, -, -, hmatches, -⟩ := Parser.reduce_eq_ok hreduce
          exact ih (hmatches.context.symm ▸ hmatches.table.symm ▸ h) (reduced.2 :: log)
      | accept =>
        simp only [Option.map_some, Action.renumber, accept_carry h]
        cases p.accept <;> simp [Renumbering.result, step, Outcome.renumber, Notice.renumber]
      | reduceMulti rules => simp [Action.renumber, step, Outcome.renumber, Fault.renumber]
      | goto m => simp [Action.renumber, step, Outcome.renumber, Fault.renumber]

/-- Trying a token takes both parsers the same way. -/
lemma attempt_carry (fuel attempts : Nat) (tried : List Symbol) (token : Token) (log : List Notice) :
    Parser.attempt fuel attempts tried token (T.carry p) (log.map (Notice.renumber T.numbers)) =
      T.step (Parser.attempt fuel attempts tried token p log) := by
  induction attempts generalizing tried token p log with
  | zero => simp [Parser.attempt, step, Outcome.renumber, Fault.renumber]
  | succ attempts ih =>
    rw [Parser.attempt, Parser.attempt]
    have hexpected : (T.carry p).expected fuel = T.numbers.result id (p.expected fuel) := h.table.expected _ _
    simp only [table_carry, stack_carry, Stack.path_translate, h.table.simulate, hexpected]
    cases p.table.simulate fuel p.stack.path token.symbol with
    | error fault => simp [Renumbering.result, step, Outcome.renumber]
    | ok peak =>
      cases peak with
      | some peak =>
        have hlimit : (T.carry p).limit = p.limit := rfl
        simp only [Renumbering.result, id, hlimit]
        split
        · simp [step, carry, Outcome.renumber]
        · exact advance_carry h token fuel log
      | none =>
        simp only [Renumbering.result, id]
        cases p.expected fuel with
        | error fault => simp [step, Outcome.renumber]
        | ok expected =>
          have hreject := h.reject (p.rejection expected token) p.memory
          simp only [Parser.rejection, Rejection.map] at hreject
          simp only [context_carry, memory_carry, Stack.nodesFromRoot_translate, hreject, h.name]
          cases hanswer : p.context.reject (p.rejection expected token) p.memory with
          | mk answer memory =>
            unfold Parser.rejection at hanswer
            simp only [hanswer, Prod.map, id, h.name]
            cases answer.filter fun symbol => !tried.contains symbol with
            | none => simp [step, carry, Outcome.renumber, Notice.renumber]
            | some symbol =>
              exact ih (p := p.retrying memory) h (tried ++ [symbol]) { token with symbol }
                (.retrying (p.context.name symbol memory) ::
                  .rejected token.position (p.context.name token.symbol p.memory) p.stack.top :: log)

/-- A call takes both parsers the same way. -/
lemma process_carry (fuel : Nat) (token : Token) :
    (T.carry p).process fuel token = T.step (p.process fuel token) := by
  unfold Parser.process
  have hfinished : (T.carry p).isFinished = p.isFinished := rfl
  rw [hfinished]
  split
  · rfl
  · simp only [context_carry, memory_carry, h.filter]
    cases hfilter : p.context.filter token.symbol token.text p.memory with
    | mk answer memory =>
      simp only [hfilter, Prod.map, id, h.name]
      cases answer with
      | none => rfl
      | some symbol =>
        exact attempt_carry (p := p.starting memory) h fuel Parser.symbolCount [symbol]
          { token with symbol } []

/-- Calls take both parsers the same way. -/
lemma after_carry (calls : List (Nat × Token)) : (T.carry p).after calls = T.carry (p.after calls) := by
  induction calls generalizing p with
  | nil => rfl
  | cons call calls ih =>
    have hmatches := p.matches_after [call]
    rw [Parser.after, Parser.after, process_carry h]
    exact ih (hmatches.context.symm ▸ hmatches.table.symm ▸ h)

end Translation

end Lalr
