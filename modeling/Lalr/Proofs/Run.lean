import Lalr.Proofs.Stack

/-!
# What a token can do to a parser

A token is first tried on the states alone and touches the stack only when it fits.  The lemmas here say what
a single call can do, so that statements about whole parses need not look into the parser again.

A call that does not drop its token tries the symbol that the context has named for it and then the symbols
that the context names in answer to rejections; `Parser.Settles` describes this search and
`Parser.ParsedAs` the symbol at its end.  `Parser.process_cases` says that a call either leaves the stack
alone and neither shifts nor accepts, or carries the token through `advance` under that symbol.
`Parser.exists_reduce_eq_ok` says what a reduction does to a stack that follows the automaton.
-/

namespace Lalr

/-- Trying a symbol follows a reduction. -/
lemma Table.simulateFrom_of_reduce {t : Table} {p q : Path} {k : Nat} {x : Symbol}
    (hk : t.action? p.top x = some (.reduce k)) (hpath : t.reducePath k p = .ok q) (fuel peak : Nat) :
    t.simulateFrom x (fuel + 1) p peak = t.simulateFrom x fuel q (max peak q.depth) := by
  rw [simulateFrom, hk]
  simp only [hpath, bind, Except.bind]

/-- A symbol fits when it can be shifted or accepted, or fits after the reduction that it calls for. -/
lemma Table.simulateFrom_succ_eq_some {t : Table} {p : Path} {x : Symbol} {fuel peak result : Nat}
    (h : t.simulateFrom x (fuel + 1) p peak = .ok (some result)) :
    (∃ m, t.action? p.top x = some (.shift m)) ∨ t.action? p.top x = some .accept ∨
      ∃ k q, t.action? p.top x = some (.reduce k) ∧ t.reducePath k p = .ok q ∧
        t.simulateFrom x fuel q (max peak q.depth) = .ok (some result) := by
  rw [simulateFrom] at h
  split at h
  · rename_i m haction
    exact Or.inl ⟨m, haction⟩
  · rename_i haction
    exact Or.inr (Or.inl haction)
  · rename_i k haction
    obtain ⟨q, hpath, hrest⟩ := bind_eq_ok.1 h
    exact Or.inr (Or.inr ⟨k, q, haction, hpath, hrest⟩)
  · cases h

/-- The second path is the first one after the reduction that the symbol calls for. -/
def Table.ReducesPath (t : Table) (x : Symbol) (p q : Path) : Prop :=
  ∃ k, t.action? p.top x = some (.reduce k) ∧ t.reducePath k p = .ok q

namespace Parser

variable {σ N : Type}

/-- Both parsers run the same table with the same context and the same limit. -/
structure Matches (p q : Parser σ N) : Prop where
  table : q.table = p.table
  context : q.context = p.context
  limit : q.limit = p.limit

/-- A parser matches itself. -/
lemma Matches.refl (p : Parser σ N) : p.Matches p := ⟨rfl, rfl, rfl⟩

/-- Matching can be chained. -/
lemma Matches.trans {p q r : Parser σ N} (hpq : p.Matches q) (hqr : q.Matches r) : p.Matches r :=
  ⟨hqr.table.trans hpq.table, hqr.context.trans hpq.context, hqr.limit.trans hpq.limit⟩

/-- A parser is created for a table without competing reductions, and starts at the root of its stack. -/
lemma create_eq_ok {table : Table} {context : Context σ N} {memory : σ} {p : Parser σ N}
    (h : create table context memory = .ok p) :
    table.checkDeterministic = .ok () ∧ p = { table, context, memory, stack := Stack.root table.start } := by
  obtain ⟨_, hcheck, hp⟩ := bind_eq_ok.1 h
  exact ⟨hcheck, (Except.ok.inj hp).symm⟩

/-- A parser is created exactly for a table without competing reductions. -/
lemma exists_create_iff {table : Table} {context : Context σ N} {memory : σ} :
    (∃ p, create table context memory = .ok p) ↔ table.checkDeterministic = .ok () := by
  constructor
  · rintro ⟨p, hp⟩
    exact (create_eq_ok hp).1
  · intro hcheck
    exact ⟨_, bind_eq_ok.2 ⟨(), hcheck, rfl⟩⟩

/-! ### The symbol of a token -/

/-- What the context is told about a token that does not fit. -/
def rejection (p : Parser σ N) (expected : List Symbol) (token : Token) : Rejection N where
  expected := expected
  found := token.symbol
  text := token.text
  position := token.position
  stack := p.stack.nodesFromRoot

/-- The parser that tries another symbol, with the memory that the context has left. -/
def retrying (p : Parser σ N) (memory : σ) : Parser σ N :=
  { p with memory, stats := { p.stats with recoveries := p.stats.recoveries + 1 } }

/-- The parser that tries a token which the context has not dropped, with the memory that the context has
left. -/
def starting (p : Parser σ N) (memory : σ) : Parser σ N :=
  { p with memory, stats := { p.stats with tokens := p.stats.tokens + 1 } }

/-- The symbol under which a token fits in the end, when its own symbol is tried first and each symbol that
does not fit is replaced by the one that the context answers with. -/
inductive Settles (fuel : Nat) : Parser σ N → List Symbol → Token → Symbol → Prop
  /-- The symbol fits. -/
  | fits {p : Parser σ N} {tried : List Symbol} {token : Token} {peak : Nat}
      (h : p.table.simulate fuel p.stack.path token.symbol = .ok (some peak)) :
      Settles fuel p tried token token.symbol
  /-- The symbol does not fit, and the context answers with one that has not been tried. -/
  | retry {p : Parser σ N} {tried expected : List Symbol} {token : Token} {symbol x : Symbol} {memory : σ}
      (h : p.table.simulate fuel p.stack.path token.symbol = .ok none)
      (hexpected : p.expected fuel = .ok expected)
      (hanswer : p.context.reject (p.rejection expected token) p.memory = (some symbol, memory))
      (hnew : symbol ∉ tried)
      (hrest : Settles fuel (p.retrying memory) (tried ++ [symbol]) { token with symbol } x) :
      Settles fuel p tried token x

/-- The symbol under which a call parses its token: the context names one before the table sees the token,
and others when that one does not fit. -/
def ParsedAs (p : Parser σ N) (fuel : Nat) (token : Token) (x : Symbol) : Prop :=
  ∃ symbol memory, p.context.filter token.symbol token.text p.memory = (some symbol, memory) ∧
    Settles fuel (p.starting memory) [symbol] { token with symbol } x

/-- A token fits under one symbol only. -/
lemma Settles.unique {fuel : Nat} {p : Parser σ N} {tried : List Symbol} {token : Token} {x y : Symbol}
    (hx : Settles fuel p tried token x) (hy : Settles fuel p tried token y) : x = y := by
  induction hx with
  | fits h =>
    cases hy with
    | fits _ => rfl
    | retry h' _ _ _ _ => cases h.symm.trans h'
  | retry h hexpected hanswer _ _ ih =>
    cases hy with
    | fits h' => cases h.symm.trans h'
    | retry _ hexpected' hanswer' _ hrest' =>
      obtain rfl := Except.ok.inj (hexpected.symm.trans hexpected')
      obtain ⟨hsymbol, rfl⟩ := Prod.mk.inj (hanswer.symm.trans hanswer')
      obtain rfl := Option.some.inj hsymbol
      exact ih hrest'

/-- A call parses its token as one symbol only. -/
lemma ParsedAs.unique {p : Parser σ N} {fuel : Nat} {token : Token} {x y : Symbol}
    (hx : p.ParsedAs fuel token x) (hy : p.ParsedAs fuel token y) : x = y := by
  obtain ⟨symbol, memory, hfilter, hsettles⟩ := hx
  obtain ⟨symbol', memory', hfilter', hsettles'⟩ := hy
  obtain ⟨hsymbol, rfl⟩ := Prod.mk.inj (hfilter.symm.trans hfilter')
  obtain rfl := Option.some.inj hsymbol
  exact hsettles.unique hsettles'

/-! ### What a call does -/

/-- Trying a token leaves the stack alone and reports an error, or carries the token through under the symbol
that fits. -/
lemma attempt_cases (fuel attempts : Nat) (tried : List Symbol) (token : Token) (p : Parser σ N)
    (log : List Notice) :
    p.Matches (attempt fuel attempts tried token p log).parser ∧
        (attempt fuel attempts tried token p log).parser.stack = p.stack ∧
        (∀ progress, (attempt fuel attempts tried token p log).outcome ≠ .progress progress) ∨
      ∃ q x log', p.Matches q ∧ q.stack = p.stack ∧ q.isFinished = p.isFinished ∧
        Settles fuel p tried token x ∧
        attempt fuel attempts tried token p log = advance { token with symbol := x } fuel q log' := by
  induction attempts generalizing tried token p log with
  | zero => exact Or.inl ⟨.refl p, rfl, nofun⟩
  | succ attempts ih =>
    rw [attempt]
    split
    · exact Or.inl ⟨.refl p, rfl, nofun⟩
    · rename_i peak hsimulate
      split
      · exact Or.inl ⟨⟨rfl, rfl, rfl⟩, rfl, nofun⟩
      · exact Or.inr ⟨p, token.symbol, log, .refl p, rfl, rfl, .fits hsimulate, rfl⟩
    · rename_i hsimulate
      split
      · exact Or.inl ⟨.refl p, rfl, nofun⟩
      · rename_i expected hexpected
        split
        rename_i answer memory hanswer
        have hretry : p.Matches (p.retrying memory) := ⟨rfl, rfl, rfl⟩
        split
        · rename_i symbol hfilter
          obtain ⟨rfl, hnew⟩ := Option.filter_eq_some_iff.1 hfilter
          rcases ih (tried ++ [symbol]) { token with symbol } (p.retrying memory) _ with
            ⟨hmatches, hstack, houtcome⟩ | ⟨q, x, log', hmatches, hstack, hfinished, hsettles, heq⟩
          · exact Or.inl ⟨hretry.trans hmatches, hstack, houtcome⟩
          · refine Or.inr ⟨q, x, log', hretry.trans hmatches, hstack, hfinished, ?_, heq⟩
            exact .retry hsimulate hexpected hanswer (by simpa using hnew) hsettles
        · exact Or.inl ⟨⟨rfl, rfl, rfl⟩, rfl, nofun⟩

/-- A call leaves the stack alone and neither shifts nor accepts, or carries its token through under the
symbol that it is parsed as. -/
lemma process_cases (p : Parser σ N) (fuel : Nat) (token : Token) :
    p.Matches (p.process fuel token).parser ∧ (p.process fuel token).parser.stack = p.stack ∧
        (p.process fuel token).outcome ≠ .progress .shifted ∧
        (p.process fuel token).outcome ≠ .progress .accepted ∨
      ∃ q x log, p.Matches q ∧ q.stack = p.stack ∧ q.isFinished = p.isFinished ∧
        p.ParsedAs fuel token x ∧
        p.process fuel token = advance { token with symbol := x } fuel q log := by
  unfold process
  split
  · exact Or.inl ⟨.refl p, rfl, nofun, nofun⟩
  · cases hfilter : p.context.filter token.symbol token.text p.memory with
    | mk answer memory =>
      cases answer with
      | none => exact Or.inl ⟨⟨rfl, rfl, rfl⟩, rfl, nofun, nofun⟩
      | some symbol =>
        have hstart : p.Matches (p.starting memory) := ⟨rfl, rfl, rfl⟩
        rcases attempt_cases fuel symbolCount [symbol] { token with symbol } (p.starting memory) [] with
          ⟨hmatches, hstack, houtcome⟩ | ⟨q, x, log, hmatches, hstack, hfinished, hsettles, heq⟩
        · exact Or.inl ⟨hstart.trans hmatches, hstack, houtcome _, houtcome _⟩
        · refine Or.inr ⟨q, x, log, hstart.trans hmatches, hstack, hfinished, ?_, heq⟩
          exact ⟨symbol, memory, hfilter, hsettles⟩

/-- A parser whose parse is over answers every call with the same error. -/
lemma process_of_isFinished {p : Parser σ N} (h : p.isFinished = true) (fuel : Nat) (token : Token) :
    p.process fuel token = ⟨p, .failed .finished, []⟩ := by
  unfold process
  rw [if_pos h]

/-- A call whose token the context has not dropped tries the symbol that the context has named for it. -/
lemma process_eq_attempt {p : Parser σ N} (hunfinished : p.isFinished = false) {token : Token} {y : Symbol}
    {memory : σ} (hfilter : p.context.filter token.symbol token.text p.memory = (some y, memory)) (fuel : Nat) :
    p.process fuel token =
      attempt fuel (UInt32.size - 1 + 1) [y] { token with symbol := y } (p.starting memory) [] := by
  unfold process
  rw [if_neg (by simp [hunfinished]), hfilter]
  rfl

/-- A single node on the stack is handed to the context. -/
lemma accept_of_pop? {p : Parser σ N} {node : N} {s : Stack N} (hpop : p.stack.pop? = some (node, s))
    (hroot : s.isRoot = true) :
    p.accept = .ok { p with memory := p.context.accept node p.memory, stack := s, isFinished := true } := by
  unfold accept
  simp [hpop, hroot]

/-- Accepting takes the only node off the stack. -/
lemma accept_eq_ok {p q : Parser σ N} (h : p.accept = .ok q) :
    ∃ node s, p.stack.pop? = some (node, s) ∧ s.isRoot = true ∧
      q = { p with memory := p.context.accept node p.memory, stack := s, isFinished := true } := by
  unfold accept at h
  split at h
  · cases h
  · rename_i node s hpop
    split at h
    · rename_i hroot
      exact ⟨node, s, hpop, hroot, (Except.ok.inj h).symm⟩
    · cases h

/-! ### Reductions -/

/-- Carrying a token through makes a reduction and goes on. -/
lemma advance_of_reduce {p q : Parser σ N} {token : Token} {k : Nat} {notice : Notice}
    (hk : p.table.action? p.stack.top token.symbol = some (.reduce k))
    (hreduce : p.reduce k = .ok (q, notice)) (fuel : Nat) (log : List Notice) :
    advance token (fuel + 1) p log = advance token fuel q (notice :: log) := by
  rw [advance]
  simp only [hk, hreduce]

/-- The second parser is the first one after the reduction that the symbol calls for. -/
def Reduces (x : Symbol) (p q : Parser σ N) : Prop :=
  ∃ k notice, p.table.action? p.stack.top x = some (.reduce k) ∧ p.reduce k = .ok (q, notice)

/-- Carrying a token through makes reductions, and then shifts it, accepts, or reports a fault. -/
lemma advance_cases (token : Token) (fuel : Nat) (p : Parser σ N) (log : List Notice) :
    ∃ q, Relation.ReflTransGen (Reduces token.symbol) p q ∧
      ((∃ m, q.table.action? q.stack.top token.symbol = some (.shift m) ∧
          (advance token fuel p log).parser = q.shift token m ∧
          (advance token fuel p log).outcome = .progress .shifted) ∨
        (q.table.action? q.stack.top token.symbol = some .accept ∧
          q.accept = .ok (advance token fuel p log).parser ∧
          (advance token fuel p log).outcome = .progress .accepted) ∨
        ((advance token fuel p log).parser = q ∧
          ∀ progress, (advance token fuel p log).outcome ≠ .progress progress)) := by
  induction fuel generalizing p log with
  | zero => exact ⟨p, .refl, Or.inr (Or.inr ⟨rfl, nofun⟩)⟩
  | succ fuel ih =>
    rw [advance]
    split
    · rename_i m haction
      exact ⟨p, .refl, Or.inl ⟨m, haction, rfl, rfl⟩⟩
    · rename_i k haction
      split
      · exact ⟨p, .refl, Or.inr (Or.inr ⟨rfl, nofun⟩)⟩
      · rename_i q notice hreduce
        obtain ⟨q', hq', hcases⟩ := ih q (notice :: log)
        exact ⟨q', .head ⟨k, notice, haction, hreduce⟩ hq', hcases⟩
    · rename_i haction
      split
      · exact ⟨p, .refl, Or.inr (Or.inr ⟨rfl, nofun⟩)⟩
      · rename_i q hq
        exact ⟨p, .refl, Or.inr (Or.inl ⟨haction, hq, rfl⟩)⟩
    · exact ⟨p, .refl, Or.inr (Or.inr ⟨rfl, nofun⟩)⟩

/-- What a reduction makes of the parser. -/
lemma reduce_eq_push {p q : Parser σ N} {k : Nat} {notice : Notice} (h : p.reduce k = .ok (q, notice)) :
    ∃ r children s m, p.table.rule k = .ok r ∧ p.stack.popMany? r.rhs.length = some (children, s) ∧
      p.table.gotoAfter s.top r = .ok m ∧
      q = { p with
        memory := (p.context.nonterminal r children p.memory).2
        stack := s.push (p.context.nonterminal r children p.memory).1 m
        stats := { p.stats with reductions := p.stats.reductions + 1 } } := by
  obtain ⟨r, hr, h⟩ := bind_eq_ok.1 h
  split at h
  · cases h
  · rename_i children s hpop
    obtain ⟨m, hafter, h⟩ := bind_eq_ok.1 h
    obtain ⟨rfl, -⟩ := Prod.mk.inj (Except.ok.inj h)
    exact ⟨r, children, s, m, hr, hpop, hafter, rfl⟩

/-- What a reduction has done to the stack. -/
lemma reduce_eq_ok {p q : Parser σ N} {k : Nat} {notice : Notice} (h : p.reduce k = .ok (q, notice)) :
    ∃ r children s m, p.table.rule k = .ok r ∧ p.stack.popMany? r.rhs.length = some (children, s) ∧
      p.table.gotoAfter s.top r = .ok m ∧ p.Matches q ∧
      q.stack = s.push (p.context.nonterminal r children p.memory).1 m := by
  obtain ⟨r, children, s, m, hr, hpop, hafter, rfl⟩ := reduce_eq_push h
  exact ⟨r, children, s, m, hr, hpop, hafter, ⟨rfl, rfl, rfl⟩, rfl⟩

/-- A reduction changes neither the table nor the context nor the limit. -/
lemma Reduces.matches {x : Symbol} {p q : Parser σ N} (h : Reduces x p q) : p.Matches q := by
  obtain ⟨k, notice, -, hreduce⟩ := h
  obtain ⟨-, -, -, -, -, -, -, hmatches, -⟩ := reduce_eq_ok hreduce
  exact hmatches

/-- A reduction reduces the path. -/
lemma Reduces.reducesPath {x : Symbol} {p q : Parser σ N} (h : Reduces x p q) :
    p.table.ReducesPath x p.stack.path q.stack.path := by
  obtain ⟨k, notice, hk, hreduce⟩ := h
  obtain ⟨r, children, s, m, hr, hpop, hafter, -, hstack⟩ := reduce_eq_ok hreduce
  have hdrop : p.stack.path.drop? r.rhs.length = some s.path := by
    rw [← Stack.map_path_popMany?, hpop]
    rfl
  refine ⟨k, hk, ?_⟩
  unfold Stack.top at hafter
  simp [Table.reducePath, hr, hdrop, hafter, hstack, Stack.push, bind, Except.bind]

/-- A chain of reductions follows a chain of reductions of the path. -/
lemma reducesPath_of_reduces {x : Symbol} {p q : Parser σ N} (h : Relation.ReflTransGen (Reduces x) p q) :
    p.Matches q ∧ Relation.ReflTransGen (p.table.ReducesPath x) p.stack.path q.stack.path := by
  induction h with
  | refl => exact ⟨.refl p, .refl⟩
  | tail _ hreduces ih =>
    obtain ⟨hmatches, hchain⟩ := ih
    exact ⟨hmatches.trans hreduces.matches, hchain.tail (hmatches.table ▸ hreduces.reducesPath)⟩

/-- A reduction puts the node of its rule in place of the nodes of the body. -/
lemma exists_reduce_of_popMany? {p : Parser σ N} {k m : Nat} {r : Rule} {children : List N} {s : Stack N}
    (hr : p.table.rules[k]? = some r) (hpop : p.stack.popMany? r.rhs.length = some (children, s))
    (hafter : p.table.gotoAfter s.top r = .ok m) :
    ∃ q notice, p.reduce k = .ok (q, notice) ∧ p.Matches q ∧ q.isFinished = p.isFinished ∧
      q.stack = s.push (p.context.nonterminal r children p.memory).1 m := by
  have hrule : p.table.rule k = .ok r := by simp [Table.rule, hr]
  unfold reduce
  simp only [hrule, hpop, hafter, bind, Except.bind]
  exact ⟨_, _, rfl, ⟨rfl, rfl, rfl⟩, rfl, rfl⟩

/-- A reduction that the table calls for takes the body of its rule off the stack and goes along a
transition. -/
lemma exists_reduce_eq_ok {g : Augmented} {a : Automaton} (wf : g.WellFormed) (ha : a.Closed g)
    {p : Parser σ N} (ht : p.table.Fits g a) {ω : List Symbol} (hp : p.stack.path.Spells a ω) {k : Nat}
    {x : Symbol} (hk : p.table.action? p.stack.top x = some (.reduce k)) :
    ∃ (r : Rule) (s : Stack N) (m : Nat) (ω' : List Symbol) (q : Parser σ N) (notice : Notice),
      k ≠ 0 ∧ g.rules[k]? = some r ∧ s.nodes = p.stack.nodes.drop r.rhs.length ∧
      ω = r.rhs.reverse ++ ω' ∧ s.path.Spells a ω' ∧ a.goto? s.top r.lhs = some m ∧
      p.table.reducePath k p.stack.path = .ok (s.path.push m) ∧ p.reduce k = .ok (q, notice) ∧
      p.Matches q ∧ q.isFinished = p.isFinished ∧
      q.stack = s.push (p.context.nonterminal r (p.stack.nodes.take r.rhs.length).reverse p.memory).1 m := by
  obtain ⟨r, path, m, ω', hr, hdrop, hω, hspells, hgoto, hafter, hpath⟩ :=
    hp.exists_reducePath wf ha ht hk
  obtain ⟨s, hpop, rfl, hnodes⟩ := Stack.exists_popMany?_eq_some hdrop
  obtain ⟨q, notice, hreduce, hmatches, hfinished, hstack⟩ :=
    exists_reduce_of_popMany? (ht.rules ▸ hr) hpop hafter
  exact ⟨r, s, m, ω', q, notice, (ht.of_reduce hk).1, hr, hnodes, hω, hspells, hgoto, hpath, hreduce,
    hmatches, hfinished, hstack⟩

/-- A reduction that has been made took the body of its rule off the stack and went along a transition. -/
lemma Reduces.exists_push {g : Augmented} {a : Automaton} (wf : g.WellFormed) (ha : a.Closed g)
    {p q : Parser σ N} (ht : p.table.Fits g a) {ω : List Symbol} (hp : p.stack.path.Spells a ω) {x : Symbol}
    (h : Reduces x p q) :
    ∃ (k : Nat) (r : Rule) (s : Stack N) (m : Nat) (ω' : List Symbol),
      k ≠ 0 ∧ g.rules[k]? = some r ∧ s.nodes = p.stack.nodes.drop r.rhs.length ∧
      ω = r.rhs.reverse ++ ω' ∧ s.path.Spells a ω' ∧ a.goto? s.top r.lhs = some m ∧ p.Matches q ∧
      q.stack = s.push (p.context.nonterminal r (p.stack.nodes.take r.rhs.length).reverse p.memory).1 m := by
  obtain ⟨k, notice, hk, hreduce⟩ := h
  obtain ⟨r, s, m, ω', q', notice', hne, hr, hnodes, hω, hspells, hgoto, -, hreduce', hmatches, -, hstack⟩ :=
    exists_reduce_eq_ok wf ha ht hp hk
  obtain ⟨rfl, -⟩ := Prod.mk.inj (Except.ok.inj (hreduce.symm.trans hreduce'))
  exact ⟨k, r, s, m, ω', hne, hr, hnodes, hω, hspells, hgoto, hmatches, hstack⟩

end Parser

end Lalr
