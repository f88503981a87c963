import Lalr.Parser.Tree
import Lalr.Proofs.Calls

/-!
# The trial predicts the run

A token is handled twice: it is tried on the states alone, and when it fits, the table is run for it with the
nodes.  The two are written apart, and nothing but the table keeps them together.

`Table.Trail` lists the reductions that a symbol calls for on a path, each with the path that it leads to, and
`Parser.Makes` lists the reductions that a parser makes, each with the parser that it leads to.  A trial that
returns has followed a trail to its end (`Table.exists_trail_of_simulateFrom`).  Every trail can be made by a
parser on that path, whatever its context is (`Parser.exists_makes_of_trail`), and the run for a token makes what
can be made (`Parser.advance_of_makes`).  So the run goes the way of the trial and ends where the trial has ended.
None of this needs anything of the table.
-/

namespace Lalr

namespace Table

/-- The reductions that the symbol calls for, one after the other, from the first path to the second: the number
of each rule, with the path that the reduction leads to. -/
inductive Trail (t : Table) (x : Symbol) : Path → List (Nat × Path) → Path → Prop
  /-- No reduction has been made. -/
  | nil {p : Path} : Trail t x p [] p
  /-- A reduction is made, and then the others. -/
  | cons {p q r : Path} {k : Nat} {trail : List (Nat × Path)} (hk : t.action? p.top x = some (.reduce k))
      (hpath : t.reducePath k p = .ok q) (hrest : Trail t x q trail r) : Trail t x p ((k, q) :: trail) r

/-- The greatest depth along a trail, starting from a depth that has been reached before. -/
def highest (depth : Nat) (trail : List (Nat × Path)) : Nat :=
  trail.foldl (fun peak step => max peak step.2.depth) depth

/-- A trail that starts from a greater depth comes up to at least the same depth. -/
lemma highest_mono {depth depth' : Nat} (h : depth ≤ depth') (trail : List (Nat × Path)) :
    highest depth trail ≤ highest depth' trail := by
  induction trail generalizing depth depth' with
  | nil => exact h
  | cons step trail ih => exact ih (max_le_max_right step.2.depth h)

/-- A trial that returns has followed a trail to a path on which no reduction is called for.  The cell that it
stopped in decides: a shift adds one frame to the depths along the trail, accepting adds none, and any other cell
refuses the symbol. -/
lemma exists_trail_of_simulateFrom {t : Table} {x : Symbol} {fuel peak : Nat} {p : Path} {result : Option Nat}
    (h : t.simulateFrom x fuel p peak = .ok result) :
    ∃ trail q, t.Trail x p trail q ∧ trail.length < fuel ∧
      ((∃ m, t.action? q.top x = some (.shift m) ∧ result = some (max (highest peak trail) (q.depth + 1))) ∨
        (t.action? q.top x = some .accept ∧ result = some (highest peak trail)) ∨
        ((t.action? q.top x = none ∨ (∃ m, t.action? q.top x = some (.goto m)) ∨
          ∃ rules, t.action? q.top x = some (.reduceMulti rules)) ∧ result = none)) := by
  induction fuel generalizing p peak with
  | zero => cases h
  | succ fuel ih =>
    rw [simulateFrom] at h
    cases haction : t.action? p.top x with
    | none =>
      rw [haction] at h
      exact ⟨[], p, .nil, Nat.succ_pos fuel, Or.inr (Or.inr ⟨Or.inl haction, (Except.ok.inj h).symm⟩)⟩
    | some action =>
      rw [haction] at h
      cases action with
      | shift m =>
        exact ⟨[], p, .nil, Nat.succ_pos fuel, Or.inl ⟨m, haction, (Except.ok.inj h).symm⟩⟩
      | accept =>
        exact ⟨[], p, .nil, Nat.succ_pos fuel, Or.inr (Or.inl ⟨haction, (Except.ok.inj h).symm⟩)⟩
      | reduce k =>
        obtain ⟨q, hpath, hrest⟩ := bind_eq_ok.1 h
        obtain ⟨trail, r, htrail, hlength, hend⟩ := ih hrest
        exact ⟨(k, q) :: trail, r, .cons haction hpath htrail, Nat.succ_lt_succ hlength, hend⟩
      | goto m =>
        exact ⟨[], p, .nil, Nat.succ_pos fuel,
          Or.inr (Or.inr ⟨Or.inr (Or.inl ⟨m, haction⟩), (Except.ok.inj h).symm⟩)⟩
      | reduceMulti rules =>
        exact ⟨[], p, .nil, Nat.succ_pos fuel,
          Or.inr (Or.inr ⟨Or.inr (Or.inr ⟨rules, haction⟩), (Except.ok.inj h).symm⟩)⟩

end Table

/-- A reduction that a parser has made. -/
structure Reduction (σ N : Type) where
  /-- The number of the rule. -/
  rule : Nat
  /-- The parser after the reduction. -/
  parser : Parser σ N
  /-- The notice about it. -/
  notice : Notice

/-- What a reduction does to the states: the number of its rule, with the path that it leads to. -/
def Reduction.track {σ N : Type} (step : Reduction σ N) : Nat × Path := (step.rule, step.parser.stack.path)

namespace Parser

variable {σ N : Type}

/-- The reductions that the parser makes under the symbol, one after the other, up to the second parser. -/
inductive Makes (x : Symbol) : Parser σ N → List (Reduction σ N) → Parser σ N → Prop
  /-- No reduction has been made. -/
  | nil {p : Parser σ N} : Makes x p [] p
  /-- A reduction is made, and then the others. -/
  | cons {p q : Parser σ N} {step : Reduction σ N} {steps : List (Reduction σ N)}
      (hk : p.table.action? p.stack.top x = some (.reduce step.rule))
      (hreduce : p.reduce step.rule = .ok (step.parser, step.notice)) (hrest : Makes x step.parser steps q) :
      Makes x p (step :: steps) q

/-- Where the path can be reduced, the parser can reduce. -/
lemma exists_reduce_of_reducePath {p : Parser σ N} {k : Nat} {path : Path}
    (h : p.table.reducePath k p.stack.path = .ok path) :
    ∃ q notice, p.reduce k = .ok (q, notice) ∧ p.Matches q ∧ q.stack.path = path := by
  obtain ⟨r, hr, h⟩ := bind_eq_ok.1 h
  split at h
  · cases h
  · rename_i below hdrop
    obtain ⟨m, hafter, h⟩ := bind_eq_ok.1 h
    obtain ⟨s, hpop, rfl, -⟩ := Stack.exists_popMany?_eq_some hdrop
    have hrule : p.table.rules[k]? = some r := by
      unfold Table.rule at hr
      split at hr
      · rename_i r' hr'
        exact hr'.trans (congrArg some (Except.ok.inj hr))
      · cases hr
    obtain ⟨q, notice, hreduce, hmatches, -, hstack⟩ := exists_reduce_of_popMany? hrule hpop hafter
    refine ⟨q, notice, hreduce, hmatches, ?_⟩
    rw [hstack]
    exact Except.ok.inj h

/-- Every trail from the path of a parser can be made by the parser. -/
lemma exists_makes_of_trail {t : Table} {x : Symbol} {path path' : Path} {trail : List (Nat × Path)}
    (h : t.Trail x path trail path') {p : Parser σ N} (ht : p.table = t) (hp : p.stack.path = path) :
    ∃ steps q, p.Makes x steps q ∧ steps.map Reduction.track = trail ∧ q.stack.path = path' ∧ q.table = t := by
  induction h generalizing p with
  | nil => exact ⟨[], p, .nil, rfl, hp, ht⟩
  | @cons path next last k trail hk hpath _ ih =>
    subst ht hp
    obtain ⟨q, notice, hreduce, hmatches, hq⟩ := exists_reduce_of_reducePath hpath
    obtain ⟨steps, r, hmakes, htrack, hr, htable⟩ := ih hmatches.table hq
    refine ⟨⟨k, q, notice⟩ :: steps, r, .cons hk hreduce hmakes, ?_, hr, htable⟩
    rw [List.map_cons, htrack, Reduction.track, hq]

/-- The run for a token makes the reductions that the parser makes, with their notices, and goes on. -/
lemma advance_of_makes {token : Token} {p q : Parser σ N} {steps : List (Reduction σ N)}
    (h : p.Makes token.symbol steps q) (fuel : Nat) (log : List Notice) :
    advance token (fuel + steps.length) p log =
      advance token fuel q ((steps.map Reduction.notice).reverse ++ log) := by
  induction h generalizing log with
  | nil => rfl
  | cons hk hreduce _ ih =>
    rw [List.length_cons, ← Nat.add_assoc, advance_of_reduce hk hreduce, ih]
    simp

/-! ### The depths of a run -/

/-- The depths of the stack during a run: at its start, after each of the reductions, and at its end.  While a
reduction takes nodes off the stack, the stack is no deeper than before the reduction. -/
def depths (p : Parser σ N) (steps : List (Reduction σ N)) (last : Parser σ N) : List Nat :=
  p.stack.depth :: (steps.map fun step => step.parser.stack.depth) ++ [last.stack.depth]

/-- The greatest depth of a run is the greatest depth along its trail, or the one at its end. -/
lemma max?_depths (p : Parser σ N) (steps : List (Reduction σ N)) (last : Parser σ N) :
    (p.depths steps last).max? =
      some (max (Table.highest p.stack.depth (steps.map Reduction.track)) last.stack.depth) := by
  unfold depths Table.highest
  rw [List.cons_append, List.max?_cons', List.foldl_append, List.foldl_map, List.foldl_map]
  rfl

/-- The reductions end at a depth that does not exceed the greatest one along their trail. -/
lemma Makes.depth_le {x : Symbol} {p q : Parser σ N} {steps : List (Reduction σ N)} (h : p.Makes x steps q) :
    q.stack.depth ≤ Table.highest p.stack.depth (steps.map Reduction.track) := by
  induction h with
  | nil => exact le_rfl
  | cons _ _ _ ih => exact ih.trans (Table.highest_mono (le_max_right _ _) _)

/-- Accepting leaves the stack no deeper than it was. -/
lemma depth_le_of_accept {p q : Parser σ N} (h : p.accept = .ok q) : q.stack.depth ≤ p.stack.depth := by
  obtain ⟨node, s, hpop, -, rfl⟩ := accept_eq_ok h
  have hnodes := congrArg List.length (Stack.nodes_of_pop? hpop)
  rw [List.length_cons, Stack.length_nodes_eq_depth, Stack.length_nodes_eq_depth] at hnodes
  change s.depth ≤ p.stack.depth
  omega

/-! ### The end of a run -/

/-- Accepting fails only when it would pop the root or leave frames on the stack. -/
lemma accept_eq_error {p : Parser σ N} {fault : Fault} (h : p.accept = .error fault) :
    fault = .popRoot p.stack.top ∨ ∃ frames, fault = .acceptLeaves p.stack.top frames := by
  unfold accept at h
  split at h
  · exact Or.inl (Except.error.inj h).symm
  · split at h
    · cases h
    · exact Or.inr ⟨_, (Except.error.inj h).symm⟩

/-- Past the reductions, the run for a token shifts it where the table shifts. -/
lemma advance_eq_of_shift {token : Token} {p q : Parser σ N} {steps : List (Reduction σ N)} {m : Nat}
    (h : p.Makes token.symbol steps q) (hm : q.table.action? q.stack.top token.symbol = some (.shift m))
    {bound : Nat} (hbound : steps.length < bound) (log : List Notice) :
    advance token bound p log = ⟨q.shift token m, .progress .shifted, log.reverse ++ steps.map Reduction.notice ++
      [.shifting q.stack.top (q.context.name token.symbol q.memory) m]⟩ := by
  obtain ⟨fuel, rfl⟩ := Nat.exists_eq_add_of_lt hbound
  rw [show steps.length + fuel + 1 = fuel + 1 + steps.length by omega, advance_of_makes h, advance]
  simp [hm]

/-- Past the reductions, the run for a token accepts where the table accepts, and fails only if that fails. -/
lemma advance_eq_of_accept {token : Token} {p q : Parser σ N} {steps : List (Reduction σ N)}
    (h : p.Makes token.symbol steps q) (haccept : q.table.action? q.stack.top token.symbol = some .accept)
    {bound : Nat} (hbound : steps.length < bound) (log : List Notice) :
    let notices := log.reverse ++ steps.map Reduction.notice ++ [.accepting q.stack.top]
    (∃ q', q.accept = .ok q' ∧ advance token bound p log = ⟨q', .progress .accepted, notices⟩) ∨
      ∃ fault, q.accept = .error fault ∧ advance token bound p log = ⟨q, .fault fault, notices⟩ := by
  obtain ⟨fuel, rfl⟩ := Nat.exists_eq_add_of_lt hbound
  rw [show steps.length + fuel + 1 = fuel + 1 + steps.length by omega, advance_of_makes h, advance]
  simp only [haccept]
  cases hq : q.accept with
  | error fault => exact Or.inr ⟨fault, rfl, by simp⟩
  | ok q' => exact Or.inl ⟨q', rfl, by simp⟩

/-- A trial that finds a way says how the run for the token goes, whatever the table, the context and the stack
are.  The run makes the reductions of the trial, by the same rules and through the same states, and then shifts
into the state or accepts as the trial has found; it does not run out of moves, and no reduction fails in it, so
that nothing but accepting can.  The greatest depth of the stack, the one at the start included, is the one that
the trial has returned, and a shift ends one frame above the depth at which the trial has ended.  A trial that finds
no way has ended in a cell without an action, with a goto or with competing reductions. -/
theorem advance_follows_trial (p : Parser σ N) (token : Token) (fuel : Nat) :
    (∀ peak, p.table.simulate fuel p.stack.path token.symbol = .ok (some peak) →
      ∃ steps q, p.Makes token.symbol steps q ∧
        p.table.Trail token.symbol p.stack.path (steps.map Reduction.track) q.stack.path ∧ steps.length < fuel ∧
        ∀ bound > steps.length, ∀ log,
          (p.depths steps (advance token bound p log).parser).max? = some peak ∧
          ((∃ m, p.table.action? q.stack.path.top token.symbol = some (.shift m) ∧
              advance token bound p log = ⟨q.shift token m, .progress .shifted,
                log.reverse ++ steps.map Reduction.notice ++
                  [.shifting q.stack.top (q.context.name token.symbol q.memory) m]⟩ ∧
              (advance token bound p log).parser.stack.depth = q.stack.path.depth + 1) ∨
            p.table.action? q.stack.path.top token.symbol = some .accept ∧
              ((∃ q', q.accept = .ok q' ∧ advance token bound p log = ⟨q', .progress .accepted,
                  log.reverse ++ steps.map Reduction.notice ++ [.accepting q.stack.top]⟩) ∨
                ∃ fault, q.accept = .error fault ∧
                  (fault = .popRoot q.stack.top ∨ ∃ frames, fault = .acceptLeaves q.stack.top frames) ∧
                  advance token bound p log = ⟨q, .fault fault,
                    log.reverse ++ steps.map Reduction.notice ++ [.accepting q.stack.top]⟩))) ∧
    (p.table.simulate fuel p.stack.path token.symbol = .ok none →
      ∃ trail path, p.table.Trail token.symbol p.stack.path trail path ∧
        (p.table.action? path.top token.symbol = none ∨
          (∃ m, p.table.action? path.top token.symbol = some (.goto m)) ∨
          ∃ rules, p.table.action? path.top token.symbol = some (.reduceMulti rules))) := by
  constructor
  · intro peak hpeak
    obtain ⟨trail, path, htrail, hlength, hend⟩ := Table.exists_trail_of_simulateFrom hpeak
    obtain ⟨steps, q, hmakes, rfl, rfl, htable⟩ := exists_makes_of_trail htrail rfl rfl
    rw [List.length_map] at hlength
    refine ⟨steps, q, hmakes, htrail, hlength, fun bound hbound log => ?_⟩
    rw [max?_depths]
    rcases hend with ⟨m, hm, heq⟩ | ⟨haccept, heq⟩ | ⟨-, heq⟩
    · have hadvance := advance_eq_of_shift hmakes (htable ▸ hm) hbound log
      have hdepth : (advance token bound p log).parser.stack.depth = q.stack.path.depth + 1 := by
        rw [hadvance]
        rfl
      exact ⟨by rw [hdepth]; exact heq.symm, Or.inl ⟨m, hm, hadvance, hdepth⟩⟩
    · have hle := hmakes.depth_le
      have hcases := advance_eq_of_accept hmakes (htable ▸ haccept) hbound log
      have hlast : (advance token bound p log).parser.stack.depth ≤ q.stack.depth := by
        rcases hcases with ⟨q', hq', hadvance⟩ | ⟨fault, -, hadvance⟩
        · rw [hadvance]
          exact depth_le_of_accept hq'
        · rw [hadvance]
      refine ⟨by rw [max_eq_left (hlast.trans hle)]; exact heq.symm, Or.inr ⟨haccept, ?_⟩⟩
      exact hcases.imp id fun ⟨fault, hfault, hadvance⟩ =>
        ⟨fault, hfault, accept_eq_error hfault, hadvance⟩
    · cases heq
  · intro hnone
    obtain ⟨trail, path, htrail, -, hend⟩ := Table.exists_trail_of_simulateFrom hnone
    rcases hend with ⟨m, -, heq⟩ | ⟨-, heq⟩ | ⟨haction, -⟩
    · cases heq
    · cases heq
    · exact ⟨trail, path, htrail, haction⟩

/-- A parser for nested pairs that has read one pair has three frames on its stack.  The trial of the end of input
comes back to this depth, and the run goes the same way without a frame more.  The trial of another closing token
ends in a cell without an action, with a goto or with competing reductions. -/
theorem advance_follows_trial_nested :
    ∃ c p, Grammar.nested.construct false = .ok c ∧ create c.table Tree.context none = .ok p ∧
      ∃ q, q = p.after [(9, ⟨⟨10⟩, "(", 0⟩), (9, ⟨⟨11⟩, ")", 1⟩)] ∧
        q.table.simulate 9 q.stack.path Symbol.eof = .ok (some 3) ∧
        (∃ steps last, q.Makes Symbol.eof steps last ∧
          q.table.Trail Symbol.eof q.stack.path (steps.map Reduction.track) last.stack.path ∧
          (q.depths steps (advance (Token.eof 2) 9 q []).parser).max? = some 3) ∧
        q.table.simulate 9 q.stack.path ⟨11⟩ = .ok none ∧
        ∃ trail path, q.table.Trail ⟨11⟩ q.stack.path trail path ∧
          (q.table.action? path.top ⟨11⟩ = none ∨ (∃ m, q.table.action? path.top ⟨11⟩ = some (.goto m)) ∨
            ∃ rules, q.table.action? path.top ⟨11⟩ = some (.reduceMulti rules)) := by
  have hrun : (do
      let c ← (Grammar.nested.construct false).toOption
      let p ← (create c.table Tree.context none).toOption
      let q := p.after [(9, ⟨⟨10⟩, "(", 0⟩), (9, ⟨⟨11⟩, ")", 1⟩)]
      let fits ← (q.table.simulate 9 q.stack.path Symbol.eof).toOption
      let refused ← (q.table.simulate 9 q.stack.path ⟨11⟩).toOption
      some (fits, refused)) = some (some 3, none) := by decide +kernel
  obtain ⟨c, hc, hrun⟩ := Option.bind_eq_some_iff.1 hrun
  obtain ⟨p, hp, hrun⟩ := Option.bind_eq_some_iff.1 hrun
  obtain ⟨fits, hfits, hrun⟩ := Option.bind_eq_some_iff.1 hrun
  obtain ⟨refused, hrefused, hrun⟩ := Option.bind_eq_some_iff.1 hrun
  obtain ⟨rfl, rfl⟩ := Prod.mk.inj (Option.some.inj hrun)
  rw [toOption_eq_some_iff] at hc hp hfits hrefused
  refine ⟨c, p, hc, hp, _, rfl, hfits, ?_, hrefused, (advance_follows_trial _ ⟨⟨11⟩, ")", 2⟩ 9).2 hrefused⟩
  obtain ⟨steps, last, hmakes, htrail, hlength, hrun⟩ := (advance_follows_trial _ (Token.eof 2) 9).1 3 hfits
  exact ⟨steps, last, hmakes, htrail, (hrun 9 hlength []).1⟩

end Parser

end Lalr
