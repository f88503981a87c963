import Lalr.Proofs.Refusal

/-!
# Nodes are neither lost nor duplicated

A parser moves the nodes that its context makes: from the context to the stack, from the stack to the node of a
reduction, and in the end from the stack back to the context.  Nothing in the table has to be right for this.

To say where a node is, nodes need an identity.  `Context.booked` numbers them in the order in which they are made
and keeps a ledger of what each of them has been made of; otherwise it does what the given context does, and
forgetting the numbers is a faithful translation.  The books balance (`Ledger.Balances`) when the numbers on the
stack, the numbers of all children and the number of the accepted root are together the numbers of all nodes, each
of them once.  Every single action of a parser keeps them balanced (`Parser.Balanced.proceeds`), and a call is a
sequence of such actions (`Parser.proceeds_process`).

The leaves of the trees on the stack are kept in order by reductions, which take their children off the stack in
reverse and turn them round again (`Parser.invariant_bears`).
-/

namespace Lalr

/-! ### Books -/

/-- What a node has been made of. -/
inductive Origin where
  /-- A token. -/
  | leaf (token : Token)
  /-- The nodes with the given numbers, by a rule. -/
  | node (rule : Rule) (children : List Nat)

namespace Origin

/-- The numbers of the children. -/
def children : Origin → List Nat
  | leaf _ => []
  | node _ children => children

/-- Whether the node has been made of a token. -/
def isLeaf : Origin → Bool
  | leaf _ => true
  | node _ _ => false

end Origin

/-- The nodes that have been made, a node being numbered by its place, and those that have been accepted. -/
structure Ledger where
  /-- What the nodes have been made of, the first one first. -/
  made : List Origin := []
  /-- The numbers of the accepted nodes. -/
  accepted : List Nat := []

namespace Ledger

/-- Enters another node. -/
def add (l : Ledger) (origin : Origin) : Ledger := { l with made := l.made ++ [origin] }

/-- Enters the number of an accepted node. -/
def close (l : Ledger) (n : Nat) : Ledger := { l with accepted := l.accepted ++ [n] }

/-- Each node is in one place: on a stack with the given numbers, at one place below one node, or accepted.  A node
that has been made by a rule has as many children as the body of the rule has symbols, and they are older than the
node itself. -/
structure Balances (l : Ledger) (stack : List Nat) : Prop where
  places : (stack ++ l.made.flatMap Origin.children ++ l.accepted).Perm (List.range l.made.length)
  children : ∀ {n : Nat} {r : Rule} {children : List Nat}, l.made[n]? = some (.node r children) →
    children.length = r.rhs.length ∧ ∀ child ∈ children, child < n

variable {l : Ledger} {stack : List Nat}

/-- Before anything has been made the books balance. -/
lemma balances_empty : Balances {} [] := ⟨by simp, by simp⟩

/-- What is on the stack has been made. -/
lemma Balances.lt_length (h : l.Balances stack) {n : Nat} (hn : n ∈ stack) : n < l.made.length := by
  have hmem : n ∈ stack ++ l.made.flatMap Origin.children ++ l.accepted := by simp [hn]
  exact List.mem_range.1 (h.places.mem_iff.1 hmem)

/-- A node that takes its children from the stack and is put on the stack keeps the books balanced. -/
lemma Balances.add (h : l.Balances stack) {origin : Origin} {rest : List Nat}
    (hstack : stack.Perm (origin.children ++ rest))
    (hlength : ∀ r children, origin = .node r children → children.length = r.rhs.length) :
    (l.add origin).Balances (l.made.length :: rest) := by
  constructor
  · rw [List.perm_iff_count]
    intro n
    have hplaces := h.places.count_eq n
    have hmoved := hstack.count_eq n
    simp only [Ledger.add, List.flatMap_append, List.flatMap_singleton, List.length_append, List.length_singleton,
      List.range_succ, List.count_append, List.count_cons, List.count_nil] at hplaces hmoved ⊢
    omega
  · intro n r children hn
    rw [Ledger.add, List.getElem?_append] at hn
    split at hn
    · exact h.children hn
    · rename_i hle
      obtain ⟨hlt, heq⟩ := List.getElem?_eq_some_iff.1 hn
      rw [List.getElem_singleton] at heq
      refine ⟨hlength r children heq, fun child hchild => ?_⟩
      have hmem : child ∈ stack := hstack.mem_iff.2 (by simp [heq, Origin.children, hchild])
      have hold := h.lt_length hmem
      omega

/-- Accepting the only node on the stack keeps the books balanced. -/
lemma Balances.close {n : Nat} (h : l.Balances [n]) : (l.close n).Balances [] := by
  refine ⟨?_, h.children⟩
  rw [List.perm_iff_count]
  intro m
  have hplaces := h.places.count_eq m
  simp only [Ledger.close, List.count_append, List.nil_append] at hplaces ⊢
  omega

end Ledger

namespace Context

variable {σ N : Type}

/-- The context that numbers the nodes in the order in which it makes them and keeps the books. -/
def booked (c : Context σ N) : Context (σ × Ledger) (Nat × N) where
  terminal token memory :=
    (c.terminal token memory.1).map (memory.2.made.length, ·) (·, memory.2.add (.leaf token))
  nonterminal r children memory :=
    (c.nonterminal r (children.map Prod.snd) memory.1).map (memory.2.made.length, ·)
      (·, memory.2.add (.node r (children.map Prod.fst)))
  accept node memory := (c.accept node.2 memory.1, memory.2.close node.1)
  reject rejection memory := (c.reject (rejection.map Prod.snd) memory.1).map id (·, memory.2)
  filter symbol text memory := (c.filter symbol text memory.1).map id (·, memory.2)
  name symbol memory := c.name symbol memory.1

/-- Forgets the numbers and the books. -/
def unbooking (c : Context σ N) (t : Table) : Translation (σ × Ledger) (Nat × N) σ N :=
  ⟨.refl, Prod.snd, Prod.fst, t, c⟩

/-- The numbers and the books can be forgotten at any time. -/
lemma faithful_unbooking (c : Context σ N) (t : Table) : (c.unbooking t).Faithful t c.booked where
  table := .refl t
  terminal _ _ := rfl
  nonterminal _ _ _ := rfl
  accept _ _ := rfl
  reject _ _ := rfl
  filter _ _ _ := rfl
  name _ _ := rfl

/-- What a context may make of its memory when it is asked about a token. -/
def Sees (c : Context σ N) (memory memory' : σ) : Prop :=
  (∃ symbol text, (c.filter symbol text memory).2 = memory') ∨ c.Rejects memory memory'

/-- Asking about a token changes nothing in the books. -/
lemma Sees.ledger_eq {c : Context σ N} {memory memory' : σ × Ledger} (h : c.booked.Sees memory memory') :
    memory'.2 = memory.2 := by
  obtain ⟨symbol, text, rfl⟩ | ⟨rejection, rfl⟩ := h
  · rfl
  · rfl

end Context

/-! ### Single actions -/

namespace Parser

variable {σ N : Type}

/-- One action of a parser whose parse is not over. -/
inductive Proceeds (p : Parser σ N) : Parser σ N → Prop
  /-- The context is asked about a token, a token or an attempt is counted, or the parse ends. -/
  | ask {memory : σ} {tokens recoveries : Nat} {isFinished : Bool} (hunfinished : p.isFinished = false)
      (h : memory = p.memory ∨ p.context.Sees p.memory memory) :
      Proceeds p { p with memory, isFinished, stats := { p.stats with tokens, recoveries } }
  /-- A reduction. -/
  | reduce {x : Symbol} {q : Parser σ N} (hunfinished : p.isFinished = false) (h : Reduces x p q) : Proceeds p q
  /-- A shift. -/
  | shift {token : Token} {m : Nat} (hunfinished : p.isFinished = false)
      (h : p.table.action? p.stack.top token.symbol = some (.shift m)) : Proceeds p (p.shift token m)
  /-- Acceptance. -/
  | accept {q : Parser σ N} (hunfinished : p.isFinished = false) (h : p.accept = .ok q) : Proceeds p q

/-- A reduction does not end the parse. -/
lemma Reduces.isFinished_eq {x : Symbol} {p q : Parser σ N} (h : Reduces x p q) : q.isFinished = p.isFinished := by
  obtain ⟨k, notice, -, hreduce⟩ := h
  obtain ⟨r, children, s, m, -, -, -, rfl⟩ := reduce_eq_push hreduce
  rfl

/-- Carrying a token through is a sequence of actions. -/
lemma proceeds_advance {p : Parser σ N} (hunfinished : p.isFinished = false) (token : Token) (fuel : Nat)
    (log : List Notice) : Relation.ReflTransGen Proceeds p (advance token fuel p log).parser := by
  obtain ⟨q, hchain, hcases⟩ := advance_cases token fuel p log
  have hq : Relation.ReflTransGen Proceeds p q ∧ q.isFinished = false := by
    clear hcases
    induction hchain with
    | refl => exact ⟨.refl, hunfinished⟩
    | tail _ hreduces ih => exact ⟨ih.1.tail (.reduce ih.2 hreduces), hreduces.isFinished_eq.trans ih.2⟩
  rcases hcases with ⟨m, haction, hparser, -⟩ | ⟨-, haccept, -⟩ | ⟨hparser, -⟩
  · rw [hparser]
    exact hq.1.tail (.shift hq.2 haction)
  · exact hq.1.tail (.accept hq.2 haccept)
  · rw [hparser]
    exact hq.1

/-- Trying a token is a sequence of actions. -/
lemma proceeds_attempt {p : Parser σ N} (hunfinished : p.isFinished = false) (fuel attempts : Nat)
    (tried : List Symbol) (token : Token) (log : List Notice) :
    Relation.ReflTransGen Proceeds p (attempt fuel attempts tried token p log).parser := by
  induction attempts generalizing tried token p log with
  | zero => exact .refl
  | succ attempts ih =>
    rw [attempt]
    split
    · exact .refl
    · split
      · exact .single (.ask hunfinished (Or.inl rfl))
      · exact proceeds_advance hunfinished token fuel log
    · split
      · exact .refl
      · split
        rename_i answer memory hanswer
        have hsees : p.context.Sees p.memory memory := Or.inr ⟨_, congrArg Prod.snd hanswer⟩
        split
        · have hretry : Proceeds p (p.retrying memory) := .ask hunfinished (Or.inr hsees)
          exact .head hretry (ih (p := p.retrying memory) hunfinished _ _ _)
        · exact .single (.ask hunfinished (Or.inr hsees))

/-- A call is a sequence of actions. -/
lemma proceeds_process (p : Parser σ N) (fuel : Nat) (token : Token) :
    Relation.ReflTransGen Proceeds p (p.process fuel token).parser := by
  unfold process
  split
  · exact .refl
  · rename_i hfinished
    have hunfinished : p.isFinished = false := by simpa using hfinished
    split
    rename_i answer memory hanswer
    have hsees : p.context.Sees p.memory memory := Or.inl ⟨_, _, congrArg Prod.snd hanswer⟩
    split
    · exact .single (.ask hunfinished (Or.inr hsees))
    · have hstart : Proceeds p (p.starting memory) := .ask hunfinished (Or.inr hsees)
      exact .head hstart (proceeds_attempt (p := p.starting memory) hunfinished _ _ _ _ _)

/-- Any number of calls are a sequence of actions. -/
lemma proceeds_after (p : Parser σ N) (calls : List (Nat × Token)) :
    Relation.ReflTransGen Proceeds p (p.after calls) := by
  induction calls generalizing p with
  | nil => exact .refl
  | cons call calls ih => exact (p.proceeds_process call.1 call.2).trans (ih _)

/-- The books of the context balance with the stack, and with what the parser has counted.  There is an accepted node
only when the parse is over, and then no other. -/
structure Balanced (c : Context σ N) (p : Parser (σ × Ledger) (Nat × N)) : Prop where
  context : p.context = c.booked
  balances : p.memory.2.Balances (p.stack.nodes.map Prod.fst)
  shifts : p.stats.shifts = p.memory.2.made.countP fun origin => origin.isLeaf
  reductions : p.stats.reductions = p.memory.2.made.countP fun origin => !origin.isLeaf
  accepted : p.memory.2.accepted.length ≤ 1
  unfinished : p.isFinished = false → p.memory.2.accepted = []

namespace Balanced

variable {c : Context σ N} {p q : Parser (σ × Ledger) (Nat × N)}

/-- A reduction puts a node in the place of its children. -/
lemma reduce (h : p.Balanced c) {x : Symbol} (hq : Reduces x p q) : q.Balanced c := by
  obtain ⟨k, notice, -, hreduce⟩ := hq
  obtain ⟨r, children, s, m, -, hpop, -, rfl⟩ := reduce_eq_push hreduce
  obtain ⟨hchildren, hnodes⟩ := Stack.popInto?_eq_some hpop
  have hlength : children.length = r.rhs.length := Stack.length_of_popInto? hpop
  have hperm : (p.stack.nodes.map Prod.fst).Perm ((Origin.node r (children.map Prod.fst)).children ++
      s.nodes.map Prod.fst) := by
    rw [Origin.children, ← List.map_append, hnodes, hchildren, List.append_nil]
    conv_lhs => rw [← List.take_append_drop r.rhs.length p.stack.nodes]
    exact ((List.reverse_perm _).symm.append_right _).map _
  have hbalances := h.balances.add hperm fun r' children' heq => by
    obtain ⟨rfl, rfl⟩ := Origin.node.inj heq
    rw [List.length_map, hlength]
  rw [h.context]
  refine ⟨rfl, hbalances, ?_, ?_, h.accepted, h.unfinished⟩
  · change p.stats.shifts = (p.memory.2.made ++ [Origin.node r (children.map Prod.fst)]).countP _
    simp [h.shifts, Origin.isLeaf]
  · change p.stats.reductions + 1 = (p.memory.2.made ++ [Origin.node r (children.map Prod.fst)]).countP _
    simp [h.reductions, Origin.isLeaf]

/-- A shift puts a new node on the stack. -/
lemma shift (h : p.Balanced c) (token : Token) (m : Nat) : (p.shift token m).Balanced c := by
  have hperm : (p.stack.nodes.map Prod.fst).Perm ((Origin.leaf token).children ++ p.stack.nodes.map Prod.fst) :=
    .refl _
  have hbalances := h.balances.add hperm nofun
  unfold Parser.shift
  rw [h.context]
  refine ⟨rfl, hbalances, ?_, ?_, h.accepted, h.unfinished⟩
  · change p.stats.shifts + 1 = (p.memory.2.made ++ [Origin.leaf token]).countP _
    simp [h.shifts, Origin.isLeaf]
  · change p.stats.reductions = (p.memory.2.made ++ [Origin.leaf token]).countP _
    simp [h.reductions, Origin.isLeaf]

/-- Acceptance takes the only node off the stack. -/
lemma accept (h : p.Balanced c) (hunfinished : p.isFinished = false) (hq : p.accept = .ok q) : q.Balanced c := by
  obtain ⟨node, s, hpop, hroot, rfl⟩ := accept_eq_ok hq
  have hrest : s.nodes = [] := List.isEmpty_iff.1 hroot
  have hbalances := h.balances
  rw [Stack.nodes_of_pop? hpop, hrest] at hbalances
  rw [h.context]
  refine ⟨rfl, ?_, h.shifts, h.reductions, ?_, nofun⟩
  · rw [hrest]
    exact hbalances.close
  · change (p.memory.2.accepted ++ [node.1]).length ≤ 1
    simp [h.unfinished hunfinished]

/-- Every action keeps the books balanced. -/
lemma proceeds (h : p.Balanced c) (hq : Proceeds p q) : q.Balanced c := by
  cases hq with
  | @ask memory _ _ _ hunfinished hmemory =>
    obtain ⟨inner, l⟩ := memory
    obtain rfl : l = p.memory.2 := by
      rcases hmemory with heq | hsees
      · exact congrArg Prod.snd heq
      · rw [h.context] at hsees
        exact hsees.ledger_eq
    exact ⟨h.context, h.balances, h.shifts, h.reductions, h.accepted, fun _ => h.unfinished hunfinished⟩
  | reduce _ hreduces => exact h.reduce hreduces
  | shift _ _ => exact h.shift _ _
  | accept hunfinished haccept => exact h.accept hunfinished haccept

/-- The books are balanced at every moment of a run. -/
lemma of_proceeds (h : p.Balanced c) (hq : Relation.ReflTransGen Proceeds p q) : q.Balanced c := by
  induction hq with
  | refl => exact h
  | tail _ hstep ih => exact ih.proceeds hstep

end Balanced

/-- At the start the books are balanced. -/
lemma balanced_of_create {c : Context σ N} {table : Table} {memory : σ} {p : Parser (σ × Ledger) (Nat × N)}
    (h : create table c.booked (memory, {}) = .ok p) (limit : Nat) :
    ({ p with limit } : Parser (σ × Ledger) (Nat × N)).Balanced c := by
  obtain ⟨-, rfl⟩ := create_eq_ok h
  exact ⟨rfl, Ledger.balances_empty, rfl, rfl, Nat.zero_le 1, fun _ => rfl⟩

/-! ### Leaves -/

/-- The parser makes trees, and the leaves on its stack are the tokens. -/
structure Bears (root : σ → Option Tree) (p : Parser σ Tree) (tokens : List Token) : Prop where
  keeps : Tree.Keeps p.context root
  leaves : Tree.leavesOfAll p.stack.nodesFromRoot = tokens

/-- Reductions keep the leaves, and a shift adds its token to them. -/
lemma invariant_bears (root : σ → Option Tree) : Invariant (Bears root) where
  of_matches h hmatches hstack := ⟨hmatches.context ▸ h.keeps, hstack ▸ h.leaves⟩
  reduce {p q tokens x} h hq := by
    obtain ⟨k, notice, -, hreduce⟩ := hq
    obtain ⟨r, children, s, m, -, hpop, -, rfl⟩ := reduce_eq_push hreduce
    obtain ⟨hchildren, hnodes⟩ := Stack.popInto?_eq_some hpop
    rw [List.append_nil] at hchildren
    refine ⟨h.keeps, ?_⟩
    change Tree.leavesOfAll (s.push (p.context.nonterminal r children p.memory).1 m).nodesFromRoot = tokens
    rw [h.keeps.nonterminal, hchildren, Stack.leaves_push_node hnodes, h.leaves]
  shift {p tokens token m} h _ := by
    refine ⟨h.keeps, ?_⟩
    change Tree.leavesOfAll (p.stack.push (p.context.terminal token p.memory).1 m).nodesFromRoot = _
    rw [h.keeps.terminal, Stack.leaves_push_leaf, h.leaves]

/-- An accepted tree has the leaves that were on the stack, and leaves the stack empty. -/
lemma Bears.accept {root : σ → Option Tree} {p q : Parser σ Tree} {tokens : List Token} (h : p.Bears root tokens)
    (hq : p.accept = .ok q) :
    q.stack.nodes = [] ∧ ∃ tree, root q.memory = some tree ∧ tree.leaves = tokens := by
  obtain ⟨tree, s, hpop, hroot, rfl⟩ := accept_eq_ok hq
  have hrest : s.nodes = [] := List.isEmpty_iff.1 hroot
  refine ⟨hrest, tree, h.keeps.accept tree p.memory, ?_⟩
  rw [← h.leaves, Stack.nodesFromRoot, Stack.nodes_of_pop? hpop, hrest]
  simp

end Parser

/-! ### Tokens -/

/-- Whether the call has used its token or refused it, rather than dropped it or found the parse over. -/
def Outcome.isCounted : Outcome → Bool
  | .progress .shifted | .progress .accepted | .failed (.unexpected _ _) | .failed (.stackOverflow _) => true
  | _ => false

namespace Parser

variable {σ N : Type}

/-- A reduction counts no token. -/
lemma Reduces.tokens_eq {x : Symbol} {p q : Parser σ N} (h : Reduces x p q) : q.stats.tokens = p.stats.tokens := by
  obtain ⟨k, notice, -, hreduce⟩ := h
  obtain ⟨r, children, s, m, -, -, -, rfl⟩ := reduce_eq_push hreduce
  rfl

/-- Carrying a token through counts no token; it uses the one that has been counted, unless there is a fault. -/
lemma tokens_advance (token : Token) (fuel : Nat) (p : Parser σ N) (log : List Notice) :
    (advance token fuel p log).parser.stats.tokens = p.stats.tokens ∧
      ((advance token fuel p log).outcome.isCounted = true ∨
        ∃ f, (advance token fuel p log).outcome = .fault f) := by
  obtain ⟨q, hchain, hcases⟩ := advance_cases token fuel p log
  have hq : q.stats.tokens = p.stats.tokens := by
    clear hcases
    induction hchain with
    | refl => rfl
    | tail _ hreduces ih => exact hreduces.tokens_eq.trans ih
  rcases hcases with ⟨m, -, hparser, houtcome⟩ | ⟨-, haccept, houtcome⟩ | ⟨hparser, hne⟩
  · rw [hparser, houtcome]
    exact ⟨hq, Or.inl rfl⟩
  · obtain ⟨node, s, -, -, heq⟩ := accept_eq_ok haccept
    rw [heq, houtcome]
    exact ⟨hq, Or.inl rfl⟩
  · rw [hparser]
    refine ⟨hq, Or.inr ?_⟩
    cases houtcome : (advance token fuel p log).outcome with
    | progress progress => exact absurd houtcome (hne progress)
    | failed e => exact absurd houtcome (advance_ne_failed token fuel p log e)
    | fault f => exact ⟨f, rfl⟩

/-- Trying a token counts no token; it uses or refuses the one that has been counted, unless there is a fault. -/
lemma tokens_attempt (fuel attempts : Nat) (tried : List Symbol) (token : Token) (p : Parser σ N)
    (log : List Notice) :
    (attempt fuel attempts tried token p log).parser.stats.tokens = p.stats.tokens ∧
      ((attempt fuel attempts tried token p log).outcome.isCounted = true ∨
        ∃ f, (attempt fuel attempts tried token p log).outcome = .fault f) := by
  induction attempts generalizing tried token p log with
  | zero => exact ⟨rfl, Or.inr ⟨_, rfl⟩⟩
  | succ attempts ih =>
    rw [attempt]
    split
    · exact ⟨rfl, Or.inr ⟨_, rfl⟩⟩
    · split
      · exact ⟨rfl, Or.inl rfl⟩
      · exact tokens_advance token fuel p log
    · split
      · exact ⟨rfl, Or.inr ⟨_, rfl⟩⟩
      · split
        rename_i answer memory hanswer
        split
        · exact ih _ _ (p.retrying memory) _
        · exact ⟨rfl, Or.inl rfl⟩

/-- A call without a fault counts its token when it uses or refuses it. -/
lemma tokens_process {p : Parser σ N} {fuel : Nat} {token : Token}
    (h : ∀ f, (p.process fuel token).outcome ≠ .fault f) :
    (p.process fuel token).parser.stats.tokens =
      p.stats.tokens + if (p.process fuel token).outcome.isCounted then 1 else 0 := by
  by_cases hfinished : p.isFinished = true
  · rw [process_of_isFinished hfinished]
    rfl
  · rcases hfilter : p.context.filter token.symbol token.text p.memory with ⟨_ | symbol, memory⟩
    · have hskip : p.process fuel token =
          ⟨{ p with memory }, .progress .skipped, [.skipped (p.context.name token.symbol memory)]⟩ := by
        unfold process
        rw [if_neg hfinished, hfilter]
      rw [hskip]
      rfl
    · rw [process_eq_attempt (by simpa using hfinished) hfilter] at h ⊢
      obtain ⟨htokens, hcounted | ⟨f, hfault⟩⟩ :=
        tokens_attempt fuel (UInt32.size - 1 + 1) [symbol] { token with symbol } (p.starting memory) []
      · rw [htokens, if_pos hcounted]
        rfl
      · exact absurd hfault (h f)

/-- After calls without a fault, the tokens that were used or refused have been counted. -/
lemma tokens_after {p : Parser σ N} {calls : List (Nat × Token)} (h : ∀ f, .fault f ∉ p.outcomes calls) :
    (p.after calls).stats.tokens = p.stats.tokens + (p.outcomes calls).countP Outcome.isCounted := by
  induction calls generalizing p with
  | nil => rfl
  | cons call calls ih =>
    obtain ⟨fuel, token⟩ := call
    simp only [outcomes, List.mem_cons, not_or] at h
    have hprocess := tokens_process fun f hfault => (h f).1 hfault.symm
    rw [after, outcomes, ih fun f => (h f).2, hprocess, List.countP_cons]
    omega

/-! ### Whole runs -/

/-- Calls end in the same way whether the books are kept or not. -/
lemma outcomes_unbooking {c : Context σ N} {p : Parser (σ × Ledger) (Nat × N)} (hcontext : p.context = c.booked)
    (calls : List (Nat × Token)) :
    ((c.unbooking p.table).carry p).outcomes calls = p.outcomes calls := by
  induction calls generalizing p with
  | nil => rfl
  | cons call calls ih =>
    obtain ⟨fuel, token⟩ := call
    have hfaithful : (c.unbooking p.table).Faithful p.table p.context := hcontext ▸ c.faithful_unbooking p.table
    have hmatches := p.matches_after [(fuel, token)]
    have hparser : (p.process fuel token).parser.table = p.table := hmatches.table
    rw [outcomes, outcomes, Translation.process_carry hfaithful]
    have houtcome : ((c.unbooking p.table).step (p.process fuel token)).outcome = (p.process fuel token).outcome :=
      Outcome.renumber_refl _
    rw [houtcome]
    have hrest := ih (p := (p.process fuel token).parser) (hmatches.context.trans hcontext)
    rw [hparser] at hrest
    exact congrArg _ hrest

/-- Nothing is lost or duplicated, whatever the table is, by calls without a fault.  There are as many nodes on the
stack as it is deep.  Their leaves are the tokens that have been shifted, each with the symbol that it was parsed as,
unless a call has accepted: then the stack is empty, and the root that the context has received has these leaves.
The tokens counted are those that were used or refused.  At every moment of the same run with a context that keeps
the books, which takes the parser through the same steps, each node is in one place, a node has as many children as
its rule has symbols, and the shifts and the reductions counted are the nodes made of tokens and by rules. -/
theorem nodes_are_conserved {table : Table} {context : Context σ Tree} {root : σ → Option Tree} {memory : σ}
    {p : Parser σ Tree} (hkeeps : Tree.Keeps context root) (hcreate : create table context memory = .ok p)
    (limit : Nat) (calls : List (Nat × Token))
    (hcalls : ∀ f, .fault f ∉ ({ p with limit } : Parser σ Tree).outcomes calls) :
    let start : Parser σ Tree := { p with limit }
    let last := start.after calls
    last.stack.nodes.length = last.stack.depth ∧
    (∃ tokens, start.Reads calls tokens ∧
      (.progress .accepted ∉ start.outcomes calls → Tree.leavesOfAll last.stack.nodesFromRoot = tokens) ∧
      (.progress .accepted ∈ start.outcomes calls →
        last.stack.nodes = [] ∧ ∃ tree, root last.memory = some tree ∧ tree.leaves = tokens)) ∧
    last.stats.tokens = (start.outcomes calls).countP Outcome.isCounted ∧
    ∃ b, create table context.booked (memory, {}) = .ok b ∧
      let booked : Parser (σ × Ledger) (Nat × Tree) := { b with limit }
      booked.outcomes calls = start.outcomes calls ∧
      (context.unbooking table).carry (booked.after calls) = last ∧
      Relation.ReflTransGen Proceeds booked (booked.after calls) ∧
      ∀ q, Relation.ReflTransGen Proceeds booked q → q.Balanced context := by
  intro start last
  obtain ⟨hcheck, rfl⟩ := create_eq_ok hcreate
  refine ⟨last.stack.length_nodes_eq_depth, ?_, ?_, ?_⟩
  · have hstart : start.Bears root [] := ⟨hkeeps, rfl⟩
    obtain ⟨tokens, hread, ⟨hrefused, hafter⟩ | ⟨haccepted, q, hq, haccept⟩⟩ :=
      (invariant_bears root).exists_reads_or_accepts hstart calls
    · exact ⟨tokens, hread, fun _ => hafter.leaves, fun haccepted => absurd haccepted hrefused⟩
    · exact ⟨tokens, hread, fun hrefused => absurd haccepted hrefused, fun _ => hq.accept haccept⟩
  · rw [tokens_after hcalls]
    exact Nat.zero_add _
  · obtain ⟨b, hb⟩ := exists_create_iff.2 hcheck
    refine ⟨b, hb, ?_⟩
    intro booked
    have hbalanced : booked.Balanced context := balanced_of_create hb limit
    obtain ⟨-, rfl⟩ := create_eq_ok hb
    have hcarry : (context.unbooking table).carry booked = start := rfl
    refine ⟨?_, ?_, booked.proceeds_after calls, fun q hq => hbalanced.of_proceeds hq⟩
    · rw [← hcarry]
      exact (outcomes_unbooking rfl calls).symm
    · rw [← Translation.after_carry (context.faithful_unbooking table) calls, hcarry]

/-- After one nested pair and the end of the input the stack is empty, the accepted tree has the tokens of the pair
as its leaves, all three tokens have been counted, and the books are balanced. -/
theorem nodes_are_conserved_nested :
    ∃ c p calls, Grammar.nested.construct false = .ok c ∧ create c.table Tree.context none = .ok p ∧
      calls = [(9, ⟨⟨10⟩, "(", 0⟩), (9, ⟨⟨11⟩, ")", 1⟩), (9, Token.eof 2)] ∧
      p.outcomes calls = [.progress .shifted, .progress .shifted, .progress .accepted] ∧
      (p.after calls).stack.nodes = [] ∧ (p.after calls).stats.tokens = 3 ∧
      (∃ tree, (p.after calls).memory = some tree ∧ p.Reads calls tree.leaves) ∧
      ∃ b, create c.table Tree.context.booked (none, {}) = .ok b ∧ (b.after calls).Balanced Tree.context := by
  have hrun : (do
      let c ← (Grammar.nested.construct false).toOption
      let p ← (create c.table Tree.context none).toOption
      some (p.outcomes [(9, ⟨⟨10⟩, "(", 0⟩), (9, ⟨⟨11⟩, ")", 1⟩), (9, Token.eof 2)])) =
      some [.progress .shifted, .progress .shifted, .progress .accepted] := by decide +kernel
  obtain ⟨c, hc, hrun⟩ := Option.bind_eq_some_iff.1 hrun
  obtain ⟨p, hp, hrun⟩ := Option.bind_eq_some_iff.1 hrun
  rw [toOption_eq_some_iff] at hc hp
  have hrun := Option.some.inj hrun
  refine ⟨c, p, _, hc, hp, rfl, hrun, ?_⟩
  have hkeeps : Tree.Keeps Tree.context id := ⟨fun _ _ => rfl, fun _ _ _ => rfl, fun _ _ => rfl⟩
  obtain ⟨-, ⟨tokens, hread, -, haccepted⟩, htokens, b, hb, -, -, hproceeds, hbalanced⟩ :=
    nodes_are_conserved hkeeps hp p.limit _ fun f => by
      rw [hrun]
      simp
  obtain ⟨hempty, tree, htree, hleaves⟩ := haccepted (by rw [hrun]; simp)
  refine ⟨hempty, ?_, ⟨tree, htree, hleaves ▸ hread⟩, b, hb, ?_⟩
  · rw [htokens, hrun]
    rfl
  · obtain ⟨-, rfl⟩ := create_eq_ok hb
    obtain ⟨-, rfl⟩ := create_eq_ok hp
    exact hbalanced _ hproceeds

end Parser

end Lalr
