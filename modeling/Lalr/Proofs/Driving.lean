import Lalr.Proofs.Soundness

/-!
# Driving a parser along a run of its table

A table that makes trees is run here on a stack and the tokens to come, one move at a time: `Table.Moves`
either shifts the first token or reduces under it.  The moves are determined (`Table.rightUnique_moves`).

A parser does not see the tokens to come.  It is given one token after the other, and for each of them it
makes the reductions and then the shift.  `Table.Feeds` cuts a run into these pieces, and
`Parser.exists_drive` says that a parser which is given the tokens of such a run with enough fuel shifts each
of them, and accepts at the end of input where the table does.  No limit is set on the depth of the stack, and
the context parses every token as what it is.
-/

namespace Lalr

namespace Table

/-- A reduction that the table calls for under a symbol, on a stack of trees. -/
inductive Reduces (t : Table) (x : Symbol) : Stack Tree → Stack Tree → Prop
  /-- The trees over the body of the rule are joined. -/
  | join {s s' : Stack Tree} {k m : Nat} {r : Rule} {children : List Tree}
      (h : t.action? s.top x = some (.reduce k)) (hr : t.rules[k]? = some r)
      (hpop : s.popMany? r.rhs.length = some (children, s')) (hafter : t.gotoAfter s'.top r = .ok m) :
      Reduces t x s (s'.push (.node r children) m)

/-- A move of the table on a stack of trees and the tokens to come. -/
inductive Moves (t : Table) : Stack Tree × List Token → Stack Tree × List Token → Prop
  /-- The first token is shifted. -/
  | shift {s : Stack Tree} {token : Token} {rest : List Token} {m : Nat}
      (h : t.action? s.top token.symbol = some (.shift m)) :
      Moves t (s, token :: rest) (s.push (.leaf token) m, rest)
  /-- A reduction is made under the first token. -/
  | reduce {s s' : Stack Tree} {token : Token} {rest : List Token} (h : t.Reduces token.symbol s s') :
      Moves t (s, token :: rest) (s', token :: rest)

/-- A run of the table on tokens up to the reductions under the end of input, cut before each token. -/
inductive Feeds (t : Table) : Stack Tree → List Token → Stack Tree → Prop
  /-- The reductions under the end of input. -/
  | nil {s s' : Stack Tree} (h : Relation.ReflTransGen (t.Reduces Symbol.eof) s s') : Feeds t s [] s'
  /-- The reductions under a token and its shift. -/
  | cons {s s₁ s' : Stack Tree} {token : Token} {rest : List Token} {m : Nat}
      (h : Relation.ReflTransGen (t.Reduces token.symbol) s s₁)
      (hshift : t.action? s₁.top token.symbol = some (.shift m))
      (hrest : Feeds t (s₁.push (.leaf token) m) rest s') : Feeds t s (token :: rest) s'

variable {t : Table}

/-! ### Moves are determined -/

/-- A stack has at most one reduction under a symbol. -/
lemma Reduces.unique {x : Symbol} {s s₁ s₂ : Stack Tree} (h₁ : t.Reduces x s s₁) (h₂ : t.Reduces x s s₂) :
    s₁ = s₂ := by
  obtain ⟨h, hr, hpop, hafter⟩ := h₁
  obtain ⟨h', hr', hpop', hafter'⟩ := h₂
  obtain rfl := Action.reduce.inj (Option.some.inj (h.symm.trans h'))
  obtain rfl := Option.some.inj (hr.symm.trans hr')
  obtain ⟨rfl, rfl⟩ := Prod.mk.inj (Option.some.inj (hpop.symm.trans hpop'))
  obtain rfl := Except.ok.inj (hafter.symm.trans hafter')
  rfl

/-- There is no reduction where the table shifts or accepts. -/
lemma not_reduces {x : Symbol} {s s' : Stack Tree} {action : Action} (h : t.action? s.top x = some action)
    (hne : ∀ k, action ≠ .reduce k) : ¬ t.Reduces x s s' := by
  rintro ⟨h', -⟩
  exact hne _ (Option.some.inj (h.symm.trans h'))

/-- A table has at most one move. -/
lemma rightUnique_moves : Relator.RightUnique t.Moves := by
  intro x y z hy hz
  cases hy with
  | shift h =>
    cases hz with
    | shift h' =>
      obtain rfl := Action.shift.inj (Option.some.inj (h.symm.trans h'))
      rfl
    | reduce h' => exact absurd h' (not_reduces h nofun)
  | reduce h =>
    cases hz with
    | shift h' => exact absurd h (not_reduces h' nofun)
    | reduce h' => rw [h.unique h']

/-! ### Cutting a run into calls -/

/-- A reduction under the first token can be put before the pieces of a run. -/
lemma Feeds.of_reduces {s s' s'' : Stack Tree} {token : Token} {rest tokens : List Token} {position : Nat}
    (htokens : token :: rest = tokens ++ [Token.eof position]) (h : t.Reduces token.symbol s s')
    (hfeeds : t.Feeds s' tokens s'') : t.Feeds s tokens s'' := by
  cases hfeeds with
  | nil h' =>
    obtain ⟨rfl, -⟩ := List.cons.inj htokens
    exact .nil (.head h h')
  | cons h' hshift hrest =>
    obtain ⟨rfl, -⟩ := List.cons.inj htokens
    exact .cons (.head h h') hshift hrest

/-- A run up to the end of input falls into pieces. -/
lemma feeds_of_moves {x y : Stack Tree × List Token} {position : Nat} (h : Relation.ReflTransGen t.Moves x y)
    (hy : y.2 = [Token.eof position]) {tokens : List Token} (hx : x.2 = tokens ++ [Token.eof position]) :
    t.Feeds x.1 tokens y.1 := by
  induction h using Relation.ReflTransGen.head_induction_on generalizing tokens with
  | refl =>
    obtain rfl : tokens = [] := by simpa using hx.symm.trans hy
    exact .nil .refl
  | head hmove hrest ih =>
    cases hmove with
    | @shift s token rest m h =>
      cases tokens with
      | nil =>
        -- nothing can be done once the end of input is shifted
        obtain ⟨-, rfl⟩ := List.cons.inj hx
        rcases hrest.cases_head with heq | ⟨z, hz, -⟩
        · rw [← heq] at hy
          cases hy
        · cases hz
      | cons token' tokens =>
        obtain ⟨rfl, rfl⟩ := List.cons.inj hx
        exact .cons .refl h (ih rfl)
    | reduce h => exact .of_reduces hx h (ih hx)

/-! ### What a reduction does to a parser -/

/-- A reduction on a stack of trees reduces its path. -/
lemma Reduces.exists_reducePath {x : Symbol} {s s' : Stack Tree} (h : t.Reduces x s s') :
    ∃ k, t.action? s.path.top x = some (.reduce k) ∧ t.reducePath k s.path = .ok s'.path := by
  obtain ⟨h, hr, hpop, hafter⟩ := h
  refine ⟨_, h, ?_⟩
  have hdrop := (s.map_path_popMany? _).symm.trans (congrArg (Option.map fun r => r.2.path) hpop)
  unfold Stack.top at hafter
  simp [reducePath, rule, hr, hdrop, hafter, bind, Except.bind, Stack.push]

/-- Trying a symbol follows a chain of reductions. -/
lemma exists_simulateFrom_eq {x : Symbol} {s s' : Stack Tree}
    (h : Relation.ReflTransGen (t.Reduces x) s s') :
    ∃ count, ∀ fuel peak, ∃ peak',
      t.simulateFrom x (fuel + count) s.path peak = t.simulateFrom x fuel s'.path peak' := by
  induction h using Relation.ReflTransGen.head_induction_on with
  | refl => exact ⟨0, fun fuel peak => ⟨peak, rfl⟩⟩
  | head hreduce _ ih =>
    obtain ⟨count, hcount⟩ := ih
    obtain ⟨k, hk, hpath⟩ := hreduce.exists_reducePath
    refine ⟨count + 1, fun fuel peak => ?_⟩
    rw [← Nat.add_assoc, simulateFrom_of_reduce hk hpath]
    exact hcount fuel _

end Table

namespace Parser

variable {σ : Type} {t : Table}

/-- The parser runs the table and makes trees, it parses every token as what it is, its stack is not limited,
and its parse is not over. -/
structure Drives (root : σ → Option Tree) (t : Table) (p : Parser σ Tree) : Prop where
  table : p.table = t
  keeps : Tree.Keeps p.context root
  filter : ∀ x text memory, (p.context.filter x text memory).1 = some x
  limit : p.limit = 0
  isFinished : p.isFinished = false

/-- A parser that matches one that can be driven, and whose parse is not over either, can be driven. -/
lemma Drives.of_matches {root : σ → Option Tree} {p q : Parser σ Tree} (h : p.Drives root t)
    (hmatches : p.Matches q) (hfinished : q.isFinished = p.isFinished) : q.Drives root t where
  table := hmatches.table.trans h.table
  keeps := hmatches.context ▸ h.keeps
  filter := hmatches.context ▸ h.filter
  limit := hmatches.limit.trans h.limit
  isFinished := hfinished.trans h.isFinished

/-- Carrying a token through follows a chain of reductions. -/
lemma exists_advance_eq (root : σ → Option Tree) {x : Symbol} {s s' : Stack Tree}
    (h : Relation.ReflTransGen (t.Reduces x) s s') :
    ∃ count, ∀ (fuel : Nat) (token : Token) (p : Parser σ Tree) (log : List Notice), token.symbol = x →
      p.Drives root t → p.stack = s →
      ∃ q log', advance token (fuel + count) p log = advance token fuel q log' ∧ q.Drives root t ∧
        q.stack = s' := by
  induction h using Relation.ReflTransGen.head_induction_on with
  | refl => exact ⟨0, fun fuel token p log _ hp hs => ⟨p, log, rfl, hp, hs⟩⟩
  | head hreduce _ ih =>
    obtain ⟨count, hcount⟩ := ih
    refine ⟨count + 1, fun fuel token p log hx hp hs => ?_⟩
    obtain ⟨hk, hr, hpop, hafter⟩ := hreduce
    subst hs hx
    rw [← hp.table] at hk hr hafter
    obtain ⟨q, notice, hreduce, hmatches, hfinished, hstack⟩ := exists_reduce_of_popMany? hr hpop hafter
    rw [hp.keeps.nonterminal] at hstack
    rw [← Nat.add_assoc, advance_of_reduce hk hreduce]
    exact hcount fuel token q _ rfl (hp.of_matches hmatches hfinished) hstack

/-- A token that fits is carried through. -/
lemma Drives.exists_process_eq {root : σ → Option Tree} {p : Parser σ Tree} (h : p.Drives root t)
    {fuel peak : Nat} {token : Token}
    (hfits : t.simulateFrom token.symbol fuel p.stack.path p.stack.path.depth = .ok (some peak)) :
    ∃ q, q.Drives root t ∧ q.stack = p.stack ∧ p.process fuel token = advance token fuel q [] := by
  cases hfilter : p.context.filter token.symbol token.text p.memory with
  | mk answer memory =>
    obtain rfl : answer = some token.symbol := by
      rw [← h.filter token.symbol token.text p.memory, hfilter]
    have hstart : p.Matches (p.starting memory) := ⟨rfl, rfl, rfl⟩
    refine ⟨p.starting memory, h.of_matches hstart rfl, rfl, ?_⟩
    have hprocess := process_eq_attempt h.isFinished hfilter fuel
    have hsimulate : (p.starting memory).table.simulate fuel (p.starting memory).stack.path token.symbol =
        .ok (some peak) := h.table ▸ hfits
    have hlimit : (p.starting memory).limit = 0 := h.limit
    rw [hprocess, attempt, hsimulate]
    simp [hlimit]

/-- With enough fuel, a call follows the reductions up to the action that ends them. -/
lemma exists_process_eq_advance (root : σ → Option Tree) {x : Symbol} {s s' : Stack Tree} {action : Action}
    (h : Relation.ReflTransGen (t.Reduces x) s s') (haction : t.action? s'.path.top x = some action)
    (hfits : (∃ m, action = .shift m) ∨ action = .accept) :
    ∃ bound, ∀ fuel ≥ bound, ∀ (token : Token) (p : Parser σ Tree), token.symbol = x → p.Drives root t →
      p.stack = s →
      ∃ (fuel' : Nat) (q : Parser σ Tree) (log : List Notice), q.Drives root t ∧ q.stack = s' ∧
        p.process fuel token = advance token (fuel' + 1) q log := by
  obtain ⟨count, hcount⟩ := Table.exists_simulateFrom_eq h
  obtain ⟨count', hcount'⟩ := exists_advance_eq root h
  refine ⟨max count count' + 1, fun fuel hfuel token p hx hp hs => ?_⟩
  obtain ⟨d, rfl⟩ : ∃ d, fuel = d + 1 + count := ⟨fuel - 1 - count, by omega⟩
  obtain ⟨d', hd'⟩ : ∃ d', d + 1 + count = d' + 1 + count' := ⟨d + count - count', by omega⟩
  subst hs hx
  obtain ⟨peak, hpeak⟩ := hcount (d + 1) p.stack.path.depth
  have hend : ∃ peak', t.simulateFrom token.symbol (d + 1) s'.path peak = .ok (some peak') := by
    rw [Table.simulateFrom, haction]
    rcases hfits with ⟨m, rfl⟩ | rfl
    · exact ⟨_, rfl⟩
    · exact ⟨_, rfl⟩
  obtain ⟨peak', hpeak'⟩ := hend
  obtain ⟨q, hq, hstack, hprocess⟩ := hp.exists_process_eq (hpeak.trans hpeak')
  obtain ⟨q', log, hadvance, hq', hstack'⟩ := hcount' (d' + 1) token q [] rfl hq hstack
  refine ⟨d', q', log, hq', hstack', ?_⟩
  rw [hprocess, hd', hadvance]

/-- With enough fuel, a call shifts its token when the table does so after reductions. -/
lemma exists_process_shifted (root : σ → Option Tree) {token : Token} {s s' : Stack Tree} {m : Nat}
    (h : Relation.ReflTransGen (t.Reduces token.symbol) s s')
    (hshift : t.action? s'.top token.symbol = some (.shift m)) :
    ∃ bound, ∀ fuel ≥ bound, ∀ p : Parser σ Tree, p.Drives root t → p.stack = s →
      (p.process fuel token).outcome = .progress .shifted ∧
      (p.process fuel token).parser.Drives root t ∧
      (p.process fuel token).parser.stack = s'.push (.leaf token) m := by
  obtain ⟨bound, hbound⟩ := exists_process_eq_advance root h hshift (Or.inl ⟨m, rfl⟩)
  refine ⟨bound, fun fuel hfuel p hp hs => ?_⟩
  obtain ⟨fuel', q, log, hq, rfl, heq⟩ := hbound fuel hfuel token p rfl hp hs
  rw [← hq.table] at hshift
  rw [heq, advance]
  simp only [hshift]
  refine ⟨trivial, hq.of_matches ⟨rfl, rfl, rfl⟩ rfl, ?_⟩
  rw [← hq.keeps.terminal token q.memory]
  rfl

/-- With enough fuel, a call accepts when the table does so after reductions and only one tree is left. -/
lemma exists_process_accepted (root : σ → Option Tree) {s s' s'' : Stack Tree} {tree : Tree}
    (h : Relation.ReflTransGen (t.Reduces Symbol.eof) s s')
    (haccept : t.action? s'.top Symbol.eof = some .accept) (hpop : s'.pop? = some (tree, s''))
    (hroot : s''.isRoot = true) :
    ∃ bound, ∀ fuel ≥ bound, ∀ p : Parser σ Tree, p.Drives root t → p.stack = s → ∀ position,
      (p.finish fuel position).outcome = .progress .accepted ∧
      root (p.finish fuel position).parser.memory = some tree := by
  obtain ⟨bound, hbound⟩ := exists_process_eq_advance root h haccept (Or.inr rfl)
  refine ⟨bound, fun fuel hfuel p hp hs position => ?_⟩
  obtain ⟨fuel', q, log, hq, rfl, heq⟩ := hbound fuel hfuel (Token.eof position) p rfl hp hs
  rw [← hq.table] at haccept
  have haccepted := accept_of_pop? hpop hroot
  rw [finish, heq, advance]
  simp only [show q.table.action? q.stack.top (Token.eof position).symbol = some .accept from haccept,
    haccepted]
  exact ⟨trivial, hq.keeps.accept tree q.memory⟩

/-- With enough fuel, a parser shifts the tokens of a run one after the other and accepts at the end of input
where the table does and only one tree is left. -/
lemma exists_drive (root : σ → Option Tree) {s s' s'' : Stack Tree} {tokens : List Token} {tree : Tree}
    (h : t.Feeds s tokens s') (haccept : t.action? s'.top Symbol.eof = some .accept)
    (hpop : s'.pop? = some (tree, s'')) (hroot : s''.isRoot = true) :
    ∃ bound, ∀ fuel ≥ bound, ∀ p : Parser σ Tree, p.Drives root t → p.stack = s →
      (∀ before token rest, tokens = before ++ token :: rest →
        ((p.after (before.map fun token => (fuel, token))).process fuel token).outcome =
          .progress .shifted) ∧
      ∀ position,
        ((p.after (tokens.map fun token => (fuel, token))).finish fuel position).outcome =
          .progress .accepted ∧
        root ((p.after (tokens.map fun token => (fuel, token))).finish fuel position).parser.memory =
          some tree := by
  induction h with
  | nil h =>
    obtain ⟨bound, hbound⟩ := exists_process_accepted root h haccept hpop hroot
    refine ⟨bound, fun fuel hfuel p hp hs => ⟨?_, hbound fuel hfuel p hp hs⟩⟩
    intro before token rest hsplit
    simp at hsplit
  | @cons s s₁ s' token rest m h hshift _ ih =>
    obtain ⟨bound, hbound⟩ := exists_process_shifted root h hshift
    obtain ⟨bound', hbound'⟩ := ih haccept hpop
    refine ⟨max bound bound', fun fuel hfuel p hp hs => ?_⟩
    obtain ⟨houtcome, hdrives, hstack⟩ := hbound fuel (le_of_max_le_left hfuel) p hp hs
    obtain ⟨hshifted, haccepted⟩ := hbound' fuel (le_of_max_le_right hfuel) _ hdrives hstack
    refine ⟨fun before token' rest' hsplit => ?_, haccepted⟩
    cases before with
    | nil =>
      obtain ⟨rfl, -⟩ := List.cons.inj hsplit
      exact houtcome
    | cons first before =>
      obtain ⟨rfl, hrest⟩ := List.cons.inj hsplit
      exact hshifted before token' rest' hrest

end Parser

end Lalr
