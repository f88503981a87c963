import Lalr.Proofs.Following
import Mathlib.Data.Fintype.Order

/-!
# Parsing terminates

No token makes a parser go on for ever when the symbols that occur in derivations from the start symbol derive
terminals and do not stand for themselves (`Grammar.process_returns`).  The reductions under any symbol then
come to an end.  There are finitely many symbols, so with enough fuel a parser can try them all, and the
answers of the context to rejections run out.  What is found by trying a symbol on the states can be done on
the stack, and at the end of it the only node is left for the context.

The checks of a grammar and of its table do not include these conditions, and they are needed
(`Grammar.exists_endless_reductions`).
-/

namespace Lalr

/-! ### Enough fuel -/

namespace Table

variable {t : Table} {p : Path}

/-- Where the reductions under a symbol come to an end, trying it returns with enough fuel. -/
lemma Halts.exists_simulateFrom_eq_ok {x : Symbol} (h : t.Halts x p) :
    ∃ bound, ∀ fuel ≥ bound, ∀ peak, ∃ result, t.simulateFrom x fuel p peak = .ok result := by
  induction h with
  | @stop p hstop =>
    refine ⟨1, fun fuel hfuel peak => ?_⟩
    obtain ⟨fuel, rfl⟩ := Nat.exists_eq_add_of_le' hfuel
    rw [simulateFrom]
    split
    · exact ⟨_, rfl⟩
    · exact ⟨_, rfl⟩
    · rename_i k hk
      exact absurd hk (hstop k)
    · exact ⟨_, rfl⟩
  | reduce hk hpath _ ih =>
    obtain ⟨bound, hbound⟩ := ih
    refine ⟨bound + 1, fun fuel hfuel peak => ?_⟩
    obtain ⟨fuel, rfl⟩ := Nat.exists_eq_add_of_le' hfuel
    rw [← Nat.add_assoc, simulateFrom_of_reduce hk hpath]
    exact hbound _ (Nat.le_add_left _ _) _

/-- There is an amount of fuel with which trying any symbol returns. -/
lemma exists_simulate_eq_ok (h : ∀ x, t.Halts x p) :
    ∃ bound, ∀ fuel ≥ bound, ∀ x, ∃ result, t.simulate fuel p x = .ok result := by
  choose bound hbound using fun x => (h x).exists_simulateFrom_eq_ok
  obtain ⟨most, hmost⟩ := Finite.exists_le bound
  exact ⟨most, fun fuel hfuel x => hbound x fuel ((hmost x).trans hfuel) _⟩

/-- Where trying any symbol returns, so does the search for the symbols that fit. -/
lemma exists_expected_eq_ok {fuel : Nat} (h : ∀ x, ∃ result, t.simulate fuel p x = .ok result) :
    ∃ symbols, t.expected fuel p = .ok symbols := by
  cases hexpected : t.expected fuel p with
  | ok symbols => exact ⟨symbols, rfl⟩
  | error f =>
    obtain ⟨x, hx⟩ := exists_simulate_of_expected hexpected
    obtain ⟨result, hresult⟩ := h x
    cases hresult.symm.trans hx

end Table

namespace Grammar

/-- Where every symbol that occurs in derivations from the start symbol derives terminals and none stands for
itself, no call of a parser goes on for ever.  After any calls there is an amount of fuel with which trying
any symbol returns, the search for the symbols that fit returns, and no token makes a call fault. -/
theorem process_returns {grammar : Grammar} {g : Augmented} (haugment : grammar.augment = .ok g)
    (hgenerates : ∀ A, grammar.classification.IsNonterminal A → grammar.Occurs A →
      Generates grammar.productions grammar.classification [A])
    (hacyclic : ∀ A, grammar.Occurs A → ¬ Relation.TransGen (StandsFor grammar.productions) A A)
    (verbose : Bool) :
    ∃ c, grammar.construct verbose = .ok c ∧
      ∀ {σ N : Type} {context : Context σ N} {memory : σ} {p : Parser σ N},
        Parser.create c.table context memory = .ok p →
        ∀ (limit : Nat) (calls : List (Nat × Token)), ∃ bound, ∀ fuel ≥ bound,
          (∀ x, ∃ peak, (({ p with limit } : Parser σ N).after calls).table.simulate fuel
            (({ p with limit } : Parser σ N).after calls).stack.path x = .ok peak) ∧
          (∃ symbols, (({ p with limit } : Parser σ N).after calls).expected fuel = .ok symbols) ∧
          ∀ token fault,
            ((({ p with limit } : Parser σ N).after calls).process fuel token).outcome ≠ .fault fault := by
  have wf := wellFormed_of_augment haugment
  obtain ⟨c, hc, -, hclosed, hfits⟩ := exists_construct_eq_ok haugment verbose
  refine ⟨c, hc, fun {σ N context memory p} hcreate limit calls => ?_⟩
  obtain ⟨-, rfl⟩ := Parser.create_eq_ok hcreate
  set p : Parser σ N := { table := c.table, context, memory, stack := Stack.root c.table.start, limit }
  have hstart : p.Follows g c.automaton := by
    refine ⟨hfits, [], ?_⟩
    change (Path.root c.table.start).Spells c.automaton []
    rw [hfits.start]
    exact .root
  have hafter := hstart.after wf hclosed calls
  obtain ⟨ω, hω⟩ := hafter.spells
  obtain ⟨bound, hbound⟩ := Table.exists_simulate_eq_ok fun x =>
    halts_of_acyclic haugment hgenerates hclosed hafter.fits hacyclic x hω
  have hlive := live_of_generates haugment hgenerates hclosed
  exact ⟨bound, fun fuel hfuel => ⟨hbound fuel hfuel, Table.exists_expected_eq_ok (hbound fuel hfuel),
    hafter.process_ne_fault wf hclosed hlive (hbound fuel hfuel)⟩⟩

/-- Nested pairs meet the conditions, so that after an opening bracket no token makes the parser go on for
ever. -/
theorem process_returns_nested :
    ∃ c p bound, nested.construct false = .ok c ∧ Parser.create c.table Tree.context none = .ok p ∧
      ∀ fuel ≥ bound, ∀ token fault,
        ((p.after [(9, ⟨⟨10⟩, "(", 0⟩)]).process fuel token).outcome ≠ .fault fault := by
  have hproductions : nested.productions = [(⟨1⟩, [⟨10⟩, ⟨1⟩, ⟨11⟩]), (⟨1⟩, [])] := by decide +kernel
  have hgenerates : ∀ A, nested.classification.IsNonterminal A → nested.Occurs A →
      Generates nested.productions nested.classification [A] := by
    intro A hA hoccurs
    obtain rfl : A = ⟨1⟩ := by
      rcases hoccurs.eq_start_or_mem with heq | ⟨p, hp, hmem⟩
      · exact heq
      · have hall : ∀ p ∈ nested.productions, ∀ X ∈ p.2,
            nested.classification[X]? = some .nonterminal → X = ⟨1⟩ := by decide +kernel
        exact hall p hp A hmem hA
    exact ⟨[], .single (Rewrites.of_production (by simp [hproductions])), nofun⟩
  have hacyclic : ∀ A, nested.Occurs A → ¬ Relation.TransGen (StandsFor nested.productions) A A := by
    intro A _ hA
    -- the closing bracket does not vanish
    obtain ⟨X, ⟨rest, hmem, hrest⟩, -⟩ := Relation.TransGen.head'_iff.1 hA
    obtain ⟨-, -, rfl⟩ : A = ⟨1⟩ ∧ X = ⟨10⟩ ∧ rest = [⟨1⟩, ⟨11⟩] := by simpa [hproductions] using hmem
    cases forall_nullable_iff.2 hrest ⟨11⟩ (by simp) with
    | of_production hp _ => simp [hproductions] at hp
  obtain ⟨g, hg⟩ := exists_augment_nested
  obtain ⟨c, p, hc, hp, -⟩ := exists_accepted_nested
  obtain ⟨c', hc', hall⟩ := process_returns hg hgenerates hacyclic false
  obtain rfl := Except.ok.inj (hc.symm.trans hc')
  obtain ⟨bound, hbound⟩ := hall hp p.limit [(9, ⟨⟨10⟩, "(", 0⟩)]
  exact ⟨c, p, bound, hc, hp, fun fuel hfuel => (hbound fuel hfuel).2.2⟩

end Grammar

/-! ### Parsers that do not come to an end -/

namespace Table

/-- The state below a body with at most one symbol, on a path with the two given states on top. -/
def uncovered? (tops : Nat × Nat) : Body → Option Nat
  | [] => some tops.1
  | [_] => some tops.2
  | _ => none

/-- The two states on top of a path after the reduction that a symbol calls for, when its rule has at most one
symbol in its body. -/
def turn? (t : Table) (x : Symbol) (tops : Nat × Nat) : Option (Nat × Nat) :=
  match t.action? tops.1 x with
  | some (.reduce k) => do
    let r ← t.rules[k]?
    let state ← uncovered? tops r.rhs
    let target ← (t.gotoAfter state r).toOption
    some (target, state)
  | _ => none

/-- Whether the reductions under a symbol lead from each of the pairs of states to one of them. -/
def turns (t : Table) (x : Symbol) (pairs : List (Nat × Nat)) : Bool :=
  pairs.all fun tops => (t.turn? x tops).any pairs.contains

variable {t : Table} {x : Symbol}

/-- Below a body with at most one symbol stands one of the two states on top. -/
lemma exists_drop?_of_uncovered? {tops : Nat × Nat} {body : Body} {state : Nat}
    (h : uncovered? tops body = some state) {p : Path} {below : List Nat}
    (hp : p.states = tops.1 :: tops.2 :: below) :
    ∃ q, p.drop? body.length = some q ∧ q.top = state := by
  obtain ⟨htop, hbelow⟩ := List.cons.inj hp
  match body with
  | [] => exact ⟨p, rfl, htop.trans (Option.some.inj h)⟩
  | [_] =>
    obtain ⟨top, below', depth, hdepth⟩ := p
    obtain rfl : below' = tops.2 :: below := hbelow
    exact ⟨_, rfl, Option.some.inj h⟩
  | _ :: _ :: _ => cases h

/-- The reduction that a symbol calls for is made on any path with the two states on top. -/
lemma exists_reducePath_of_turn? {tops tops' : Nat × Nat} (h : t.turn? x tops = some tops') {p : Path}
    {below : List Nat} (hp : p.states = tops.1 :: tops.2 :: below) :
    ∃ k q below', t.action? p.top x = some (.reduce k) ∧ t.reducePath k p = .ok q ∧
      q.states = tops'.1 :: tops'.2 :: below' := by
  obtain ⟨htop, -⟩ := List.cons.inj hp
  unfold turn? at h
  split at h
  · rename_i k hk
    obtain ⟨r, hr, h⟩ := Option.bind_eq_some_iff.1 h
    obtain ⟨state, hstate, h⟩ := Option.bind_eq_some_iff.1 h
    obtain ⟨target, htarget, h⟩ := Option.bind_eq_some_iff.1 h
    obtain rfl := Option.some.inj h
    obtain ⟨q, hdrop, rfl⟩ := exists_drop?_of_uncovered? hstate hp
    have htarget := toOption_eq_some_iff.1 htarget
    refine ⟨k, q.push target, q.below, htop ▸ hk, ?_, rfl⟩
    simp [reducePath, rule, hr, hdrop, htarget, bind, Except.bind]
  · cases h

/-- Where the pairs of states turn into one another, trying the symbol uses up any fuel. -/
lemma simulateFrom_of_turns {pairs : List (Nat × Nat)} (h : t.turns x pairs = true) (fuel : Nat) {p : Path}
    {tops : Nat × Nat} {below : List Nat} (htops : tops ∈ pairs) (hp : p.states = tops.1 :: tops.2 :: below)
    (peak : Nat) : t.simulateFrom x fuel p peak = .error .unsettled := by
  induction fuel generalizing p tops below peak with
  | zero => rfl
  | succ fuel ih =>
    have hturns := List.all_eq_true.1 h tops htops
    obtain ⟨tops', hturn, hmem⟩ := (Option.any_eq_true _ _).1 hturns
    obtain ⟨k, q, below', hk, hpath, hq⟩ := exists_reducePath_of_turn? hturn hp
    rw [simulateFrom_of_reduce hk hpath]
    exact ih (List.contains_iff_mem.1 hmem) hq _

end Table

namespace Grammar

/-- The grammar with the given productions, with `0` as its initial symbol and `1` as its start symbol. -/
def ofProductions (productions : List (Symbol × Body)) : Grammar :=
  let builder : Builder := { unknown := Symbol.unknown, init := ⟨0⟩, start := ⟨1⟩ }
  (productions.foldl (fun b p => b.add p.1 p.2) builder).toGrammar

/-- Two symbols that stand for each other, `X ::= Y | x` and `Y ::= X`, in the grammar
`S ::= a C | b C | b Y t | d X t`, `C ::= X c`, with the symbols `S = 1`, `C = 2`, `X = 3`, `Y = 4`, `a = 10`,
`b = 11`, `d = 12`, `c = 13`, `t = 14` and `x = 15`. -/
def circular : Grammar :=
  ofProductions [(⟨1⟩, [⟨10⟩, ⟨2⟩]), (⟨1⟩, [⟨11⟩, ⟨2⟩]), (⟨1⟩, [⟨11⟩, ⟨4⟩, ⟨14⟩]), (⟨1⟩, [⟨12⟩, ⟨3⟩, ⟨14⟩]),
    (⟨2⟩, [⟨3⟩, ⟨13⟩]), (⟨3⟩, [⟨4⟩]), (⟨3⟩, [⟨15⟩]), (⟨4⟩, [⟨3⟩])]

/-- A symbol that derives no terminals, `U ::= U U`, in the grammar `S ::= q B e | q D`, `B ::= N X U`,
`X ::= D | M t`, `D ::= N B e`, `N ::= ε`, `M ::= ε`, with the symbols `S = 1`, `B = 2`, `X = 3`, `D = 4`,
`N = 5`, `M = 6`, `U = 7`, `q = 10`, `t = 11` and `e = 12`. -/
def barren : Grammar :=
  ofProductions [(⟨1⟩, [⟨10⟩, ⟨2⟩, ⟨12⟩]), (⟨1⟩, [⟨10⟩, ⟨4⟩]), (⟨2⟩, [⟨5⟩, ⟨3⟩, ⟨7⟩]), (⟨3⟩, [⟨4⟩]),
    (⟨3⟩, [⟨6⟩, ⟨11⟩]), (⟨4⟩, [⟨5⟩, ⟨2⟩, ⟨12⟩]), (⟨5⟩, []), (⟨6⟩, []), (⟨7⟩, [⟨7⟩, ⟨7⟩])]

/-- The initial symbol in a body: `S ::= a I | b`, with the symbols `I = 0`, `S = 1`, `a = 10` and
`b = 11`. -/
def reentrant : Grammar :=
  ofProductions [(⟨1⟩, [⟨10⟩, ⟨0⟩]), (⟨1⟩, [⟨11⟩])]

/-- A parser for the grammar is created, and after the calls trying the symbol uses up any fuel. -/
def Hangs (grammar : Grammar) (calls : List (Nat × Token)) (x : Symbol) : Prop :=
  ∃ c p, grammar.construct false = .ok c ∧ Parser.create c.table Tree.context none = .ok p ∧
    ∀ fuel, (p.after calls).table.simulate fuel (p.after calls).stack.path x = .error .unsettled

/-- A parser hangs when the two states on top of its stack turn in a circle. -/
lemma hangs_of_turns {grammar : Grammar} {calls : List (Nat × Token)} {x : Symbol} (top next : Nat)
    (below : List Nat) (pairs : List (Nat × Nat)) (hmem : (top, next) ∈ pairs)
    (h : (do
      let c ← (grammar.construct false).toOption
      let p ← (Parser.create c.table Tree.context none).toOption
      some ((p.after calls).stack.path.states, (p.after calls).table.turns x pairs)) =
      some (top :: next :: below, true)) : grammar.Hangs calls x := by
  obtain ⟨c, hc, h⟩ := Option.bind_eq_some_iff.1 h
  obtain ⟨p, hp, h⟩ := Option.bind_eq_some_iff.1 h
  obtain ⟨hstates, hturns⟩ := Prod.mk.inj (Option.some.inj h)
  refine ⟨c, p, toOption_eq_some_iff.1 hc, toOption_eq_some_iff.1 hp, fun fuel => ?_⟩
  exact Table.simulateFrom_of_turns hturns fuel hmem hstates _

/-- Tables that pass their check can make a parser reduce for ever, by symbols that stand for each other or by
a symbol that derives no terminals, and a parser can fault where the initial symbol stands in a body. -/
theorem exists_endless_reductions :
    circular.Hangs [(9, ⟨⟨10⟩, "a", 0⟩), (9, ⟨⟨15⟩, "x", 1⟩)] ⟨14⟩ ∧
      barren.Hangs [(9, ⟨⟨10⟩, "q", 0⟩)] ⟨11⟩ ∧
      ∃ c p, reentrant.construct false = .ok c ∧ Parser.create c.table Tree.context none = .ok p ∧
        ((p.after [(9, ⟨⟨10⟩, "a", 0⟩), (9, ⟨⟨11⟩, "b", 1⟩)]).finish 9 2).outcome =
          .fault (.acceptLeaves 1 1) := by
  refine ⟨hangs_of_turns 8 2 [0] [(8, 2), (6, 2), (7, 2)] (by decide) (by decide +kernel),
    hangs_of_turns 2 0 [] [(2, 0), (5, 2), (5, 5)] (by decide) (by decide +kernel), ?_⟩
  have hrun : (do
      let c ← (reentrant.construct false).toOption
      let p ← (Parser.create c.table Tree.context none).toOption
      some ((p.after [(9, ⟨⟨10⟩, "a", 0⟩), (9, ⟨⟨11⟩, "b", 1⟩)]).finish 9 2).outcome) =
      some (.fault (.acceptLeaves 1 1)) := by decide +kernel
  obtain ⟨c, hc, hrun⟩ := Option.bind_eq_some_iff.1 hrun
  obtain ⟨p, hp, hrun⟩ := Option.bind_eq_some_iff.1 hrun
  exact ⟨c, p, toOption_eq_some_iff.1 hc, toOption_eq_some_iff.1 hp, Option.some.inj hrun⟩

end Grammar

end Lalr
