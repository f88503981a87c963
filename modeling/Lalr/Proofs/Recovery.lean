import Lalr.Proofs.Attempts

/-!
# Recovery from tokens that do not fit

Where every trial on the stack of a parser returns, a call always comes to an end, whatever its context answers to
rejections and however the answers depend on what the context remembers (`Parser.attempts_come_to_an_end`).  The
symbols that a call tries are different from one another, and all but the last one do not fit.  Each of them that
does not fit is shown to the context, always with the same expected symbols, text, position and nodes.

The expected symbols are read off the row of the current state, whereas a call looks up the symbol that it is given.
They agree all the same: the expected symbols are those with which a call needs no recovery
(`Parser.expected_iff_no_rejections`).

A token that fits can still fail.  The trial looks at the states only, and a table may accept with any number of nodes
on the stack (`Parser.fitting_token_may_fault`).
-/

namespace Lalr

namespace Table

variable {t : Table} {p : Path}

/-- A trial that returns shows that the reductions come to an end. -/
lemma halts_of_simulateFrom {x : Symbol} {fuel peak : Nat} {result : Option Nat}
    (h : t.simulateFrom x fuel p peak = .ok result) : t.Halts x p := by
  induction fuel generalizing p peak with
  | zero => cases h
  | succ fuel ih =>
    rw [simulateFrom] at h
    split at h
    · rename_i m haction
      exact .stop fun k hk => by cases haction.symm.trans hk
    · rename_i haction
      exact .stop fun k hk => by cases haction.symm.trans hk
    · rename_i k hk
      obtain ⟨q, hpath, hrest⟩ := bind_eq_ok.1 h
      exact .reduce hk hpath (ih hrest)
    · rename_i hreduce
      exact .stop hreduce

/-- Where every trial returns, with enough fuel the search for the symbols that fit finds them in ascending order,
and the trial of a symbol finds out whether it is one of them. -/
lemma exists_expected_eq_fits (h : ∀ x, ∃ fuel result, t.simulate fuel p x = .ok result) :
    ∃ symbols bound, symbols.Pairwise (fun a b => a.id < b.id) ∧ (∀ x, x ∈ symbols ↔ t.Takes x p) ∧
      ∀ fuel ≥ bound, t.expected fuel p = .ok symbols ∧
        ∀ x, ∃ result, t.simulate fuel p x = .ok result ∧ (result.isSome = true ↔ x ∈ symbols) := by
  have hhalts (x : Symbol) : t.Halts x p := by
    obtain ⟨fuel, result, hresult⟩ := h x
    exact halts_of_simulateFrom hresult
  obtain ⟨symbols, bound, hsorted, hmem, hexpected⟩ := exists_expected_eq_takes hhalts
  obtain ⟨bound', hreturns⟩ := exists_simulate_eq_ok hhalts
  refine ⟨symbols, max bound bound', hsorted, hmem, fun fuel hfuel => ⟨?_, fun x => ?_⟩⟩
  · exact (hexpected fuel ((le_max_left _ _).trans hfuel)).1
  · obtain ⟨result, hresult⟩ := hreturns fuel ((le_max_right _ _).trans hfuel) x
    exact ⟨result, hresult, (isSome_iff_takes hresult).trans (hmem x).symm⟩

/-- A trial of a symbol without an action returns, so that only those of the current row need to be tried. -/
lemma exists_simulate_of_row (fuel : Nat)
    (h : ((t.row p.top).all fun entry => (t.simulate fuel p entry.1).isOk) = true) (x : Symbol) :
    ∃ fuel result, t.simulate fuel p x = .ok result := by
  cases haction : t.action? p.top x with
  | none =>
    refine ⟨1, none, ?_⟩
    rw [simulate, simulateFrom, haction]
  | some action =>
    have hok := List.all_eq_true.1 h (x, action) (mem_row.2 haction)
    cases hresult : t.simulate fuel p x with
    | ok result => exact ⟨fuel, result, hresult⟩
    | error f =>
      simp only [hresult] at hok
      cases hok

end Table

namespace Parser

variable {σ N : Type}

/-! ### Tokens that are carried through -/

/-- Reductions do not count attempts. -/
lemma recoveries_of_reduces {x : Symbol} {p q : Parser σ N} (h : Relation.ReflTransGen (Reduces x) p q) :
    q.stats.recoveries = p.stats.recoveries := by
  induction h with
  | refl => rfl
  | tail _ hreduces ih =>
    obtain ⟨k, notice, -, hreduce⟩ := hreduces
    obtain ⟨r, children, s, m, -, -, -, rfl⟩ := reduce_eq_push hreduce
    exact ih

namespace Carries

variable {p q : Parser σ N} {token : Token} {outcome : Outcome}

/-- Carrying a token through does not count attempts. -/
lemma recoveries_eq (h : p.Carries token q outcome) : q.stats.recoveries = p.stats.recoveries := by
  cases h with
  | shift hchain _ => exact (recoveries_of_reduces hchain :)
  | accept hchain _ haccept =>
    obtain ⟨node, s, -, -, rfl⟩ := accept_eq_ok haccept
    exact (recoveries_of_reduces hchain :)
  | fault hchain _ _ _ => exact recoveries_of_reduces hchain
  | overflow _ _ => rfl

end Carries

/-! ### Calls on which every trial returns -/

/-- Where every trial returns, the attempts of a call end with a symbol that is carried through, or with one that is
refused because the context gives up or repeats itself; every symbol that does not fit has been shown to the
context. -/
lemma exists_attempts_of_returns {p : Parser σ N} (hunfinished : p.isFinished = false) {fuel : Nat}
    {symbols : List Symbol} (hexpected : p.expected fuel = .ok symbols)
    (hreturns : ∀ x, ∃ result, p.table.simulate fuel p.stack.path x = .ok result) {token : Token} {y : Symbol}
    {memory : σ} (hfilter : p.context.filter token.symbol token.text p.memory = (some y, memory)) :
    ∃ unfit x memory', p.Attempts fuel token unfit x memory' ∧
      ((∃ peak, p.table.simulate fuel p.stack.path x = .ok (some peak)) ∧
          (p.trying memory' unfit.length).Carries { token with symbol := x } (p.process fuel token).parser
            (p.process fuel token).outcome ∧
          p.rejections fuel token = unfit.map (fun z => p.rejection symbols { token with symbol := z }) ∨
        p.table.simulate fuel p.stack.path x = .ok none ∧
          (∃ answer memory'', p.context.reject (p.rejection symbols { token with symbol := x }) memory' =
              (answer, memory'') ∧ (∀ z ∈ answer, z ∈ unfit ++ [x]) ∧
            (p.process fuel token).parser = { p.trying memory'' unfit.length with isFinished := true }) ∧
          (p.process fuel token).outcome = .failed (.unexpected symbols x) ∧
          p.rejections fuel token =
            (unfit ++ [x]).map (fun z => p.rejection symbols { token with symbol := z })) := by
  have hfirst : p.Attempts fuel token [] y memory := .first hfilter
  obtain ⟨unfit, x, memory', h, ⟨peak, hpeak⟩ | ⟨q, outcome, hgives⟩⟩ := hfirst.exists_last
  · obtain ⟨log, hprocess⟩ := h.process_of_fits hunfinished hpeak
    refine ⟨unfit, x, memory', h, Or.inl ⟨⟨peak, hpeak⟩, ?_, h.rejections_of_fits hunfinished hexpected hpeak⟩⟩
    exact carries_of_fits (p.trying memory' unfit.length) { token with symbol := x } hpeak log hprocess
  · obtain ⟨notices, hprocess⟩ := h.process_of_gives hunfinished hgives
    rw [hprocess]
    cases hgives with
    | up hunfit hexpected' hanswer hold =>
      obtain rfl := Except.ok.inj (hexpected.symm.trans hexpected')
      refine ⟨unfit, x, memory', h, Or.inr ⟨hunfit, ⟨_, _, hanswer, hold, rfl⟩, rfl, ?_⟩⟩
      exact h.rejections_of_gives hunfinished hexpected hunfit (by rwa [hanswer])
    | faultOfTrial hf =>
      obtain ⟨result, hresult⟩ := hreturns x
      cases hresult.symm.trans hf
    | faultOfSearch _ hf => cases hexpected.symm.trans hf

/-- Where every trial on the stack of an unfinished parser returns, a call with enough fuel comes to an end, whatever
the table, the limit and the context are.  The symbols that it tries begin with the one that the context has named for
the token, and each further one is the answer of the context to the rejection of the one before it; they are different
from one another, so that there are no more of them than there are symbols, and all but the last one do not fit.  Each
further one is counted.  The context is shown exactly the symbols that do not fit, all with the same expected symbols,
text, position and nodes.  If the last symbol fits, the token is shifted or accepted under it, with its own text and
position, or would raise the stack above its limit, or the table accepts although there is not just one node on the
stack; otherwise the token is refused, with the last symbol as the one that was found. -/
theorem attempts_come_to_an_end {p : Parser σ N} (hunfinished : p.isFinished = false)
    (hreturns : ∀ x, ∃ fuel result, p.table.simulate fuel p.stack.path x = .ok result) :
    ∃ symbols bound, ∀ fuel ≥ bound, p.expected fuel = .ok symbols ∧
      ∀ (token : Token) (y : Symbol) (memory : σ),
        p.context.filter token.symbol token.text p.memory = (some y, memory) →
        ∃ unfit x memory', p.Attempts fuel token unfit x memory' ∧ (unfit ++ [x]).head? = some y ∧
          (unfit ++ [x]).Nodup ∧ (unfit ++ [x]).length ≤ symbolCount ∧
          (∀ z ∈ unfit, p.table.simulate fuel p.stack.path z = .ok none) ∧
          (p.process fuel token).parser.stats.recoveries = p.stats.recoveries + unfit.length ∧
          ((∃ peak, p.table.simulate fuel p.stack.path x = .ok (some peak)) ∧
              (p.trying memory' unfit.length).Carries { token with symbol := x } (p.process fuel token).parser
                (p.process fuel token).outcome ∧
              p.rejections fuel token = unfit.map (fun z => p.rejection symbols { token with symbol := z }) ∨
            p.table.simulate fuel p.stack.path x = .ok none ∧
              (∃ answer memory'', p.context.reject (p.rejection symbols { token with symbol := x }) memory' =
                  (answer, memory'') ∧ (∀ z ∈ answer, z ∈ unfit ++ [x]) ∧
                (p.process fuel token).parser = { p.trying memory'' unfit.length with isFinished := true }) ∧
              (p.process fuel token).outcome = .failed (.unexpected symbols x) ∧
              p.rejections fuel token =
                (unfit ++ [x]).map (fun z => p.rejection symbols { token with symbol := z })) := by
  obtain ⟨symbols, bound, -, -, hbound⟩ := Table.exists_expected_eq_fits hreturns
  refine ⟨symbols, bound, fun fuel hfuel => ⟨(hbound fuel hfuel).1, fun token y memory hfilter => ?_⟩⟩
  obtain ⟨hexpected, hresult⟩ := hbound fuel hfuel
  obtain ⟨unfit, x, memory', h, hend⟩ := exists_attempts_of_returns hunfinished hexpected
    (fun x => (hresult x).imp fun _ => And.left) hfilter
  refine ⟨unfit, x, memory', h, by rw [h.head?_eq, hfilter], h.nodup, length_le_symbolCount h.nodup,
    h.simulate_eq_none, ?_, hend⟩
  rcases hend with ⟨-, hcarries, -⟩ | ⟨-, ⟨answer, memory'', -, -, hparser⟩, -, -⟩
  · exact hcarries.recoveries_eq
  · rw [hparser]
    rfl

/-- A context that counts the rejections that it is shown.  It answers the first one with the symbol `12` and the
others with the end of the input. -/
def insistent : Context Nat Tree where
  terminal token count := (.leaf token, count)
  nonterminal r children count := (.node r children, count)
  accept _ count := count
  reject _ count := (some (if count = 0 then ⟨12⟩ else Symbol.eof), count + 1)

/-- A parser for nested pairs that has read one pair expects the end of the input only.  The trial of every symbol
returns, since it does for those in the current row. -/
lemma exists_insistent_nested :
    ∃ c p q, Grammar.nested.construct false = .ok c ∧ create c.table insistent 0 = .ok p ∧
      q = p.after [(9, ⟨⟨10⟩, "(", 0⟩), (9, ⟨⟨11⟩, ")", 1⟩)] ∧ q.isFinished = false ∧ q.context = insistent ∧
      (∀ x, ∃ fuel result, q.table.simulate fuel q.stack.path x = .ok result) ∧
      q.expected 9 = .ok [Symbol.eof] ∧ (q.process 9 ⟨⟨11⟩, ")", 2⟩).outcome = .progress .accepted ∧
      (q.process 9 ⟨⟨11⟩, ")", 2⟩).parser.stats.recoveries = 2 := by
  have hrun : (do
      let c ← (Grammar.nested.construct false).toOption
      let p ← (create c.table insistent 0).toOption
      let q := p.after [(9, ⟨⟨10⟩, "(", 0⟩), (9, ⟨⟨11⟩, ")", 1⟩)]
      let expected ← (q.expected 9).toOption
      let row := (q.table.row q.stack.path.top).all fun entry => (q.table.simulate 9 q.stack.path entry.1).isOk
      let step := q.process 9 ⟨⟨11⟩, ")", 2⟩
      some (q.isFinished, row, expected, step.outcome, step.parser.stats.recoveries)) =
      some (false, true, [Symbol.eof], .progress .accepted, 2) := by decide +kernel
  obtain ⟨c, hc, hrun⟩ := Option.bind_eq_some_iff.1 hrun
  obtain ⟨p, hp, hrun⟩ := Option.bind_eq_some_iff.1 hrun
  obtain ⟨expected, hexpected, hrun⟩ := Option.bind_eq_some_iff.1 hrun
  obtain ⟨hfinished, hrest⟩ := Prod.mk.inj (Option.some.inj hrun)
  obtain ⟨hrow, hrest⟩ := Prod.mk.inj hrest
  obtain ⟨hlist, hrest⟩ := Prod.mk.inj hrest
  obtain ⟨houtcome, hrecoveries⟩ := Prod.mk.inj hrest
  rw [toOption_eq_some_iff] at hc hp hexpected
  subst hlist
  refine ⟨c, p, _, hc, hp, rfl, hfinished, ?_, Table.exists_simulate_of_row 9 hrow, hexpected, houtcome, hrecoveries⟩
  obtain ⟨-, rfl⟩ := create_eq_ok hp
  exact context_after _ _

/-- After one pair, another closing bracket is replaced by the symbol `12`, and that by the end of the input, which
fits. -/
theorem attempts_come_to_an_end_nested :
    ∃ c p q, Grammar.nested.construct false = .ok c ∧ create c.table insistent 0 = .ok p ∧
      q = p.after [(9, ⟨⟨10⟩, "(", 0⟩), (9, ⟨⟨11⟩, ")", 1⟩)] ∧ q.isFinished = false ∧
      (∀ x, ∃ fuel result, q.table.simulate fuel q.stack.path x = .ok result) ∧
      (q.process 9 ⟨⟨11⟩, ")", 2⟩).outcome = .progress .accepted ∧
      (q.process 9 ⟨⟨11⟩, ")", 2⟩).parser.stats.recoveries = 2 ∧
      ∃ bound, ∀ fuel ≥ bound, ∃ unfit x memory, q.Attempts fuel ⟨⟨11⟩, ")", 2⟩ unfit x memory ∧
        (unfit ++ [x]).head? = some ⟨11⟩ ∧ (unfit ++ [x]).Nodup ∧
        (∀ z ∈ unfit, q.table.simulate fuel q.stack.path z = .ok none) ∧
        (q.process fuel ⟨⟨11⟩, ")", 2⟩).parser.stats.recoveries = q.stats.recoveries + unfit.length := by
  obtain ⟨c, p, q, hc, hp, hq, hunfinished, hcontext, hreturns, -, houtcome, hrecoveries⟩ := exists_insistent_nested
  obtain ⟨symbols, bound, hbound⟩ := attempts_come_to_an_end hunfinished hreturns
  refine ⟨c, p, q, hc, hp, hq, hunfinished, hreturns, houtcome, hrecoveries, bound, fun fuel hfuel => ?_⟩
  obtain ⟨unfit, x, memory, h, hhead, hnodup, -, hunfit, hcount, -⟩ :=
    (hbound fuel hfuel).2 ⟨⟨11⟩, ")", 2⟩ ⟨11⟩ q.memory (by rw [hcontext]; rfl)
  exact ⟨unfit, x, memory, h, hhead, hnodup, hunfit, hcount⟩

/-- In a table that accepts the end of the input in its start state, the trial of every symbol returns and the end of
the input fits; but it is neither shifted nor accepted, nor does it raise the stack above its limit.  Accepting fails,
because there is no node on the stack. -/
theorem fitting_token_may_fault :
    ∃ p : Parser (Option Tree) Tree,
      create (Table.ofList 0 [(⟨0, Symbol.eof⟩, .accept)] #[]) Tree.context none = .ok p ∧ p.isFinished = false ∧
      (∀ x, ∃ fuel result, p.table.simulate fuel p.stack.path x = .ok result) ∧
      ∀ fuel > 0, p.table.simulate fuel p.stack.path Symbol.eof = .ok (some 0) ∧
        (p.process fuel (Token.eof 0)).outcome = .fault (.popRoot 0) := by
  obtain ⟨p, hp⟩ : ∃ p, create (Table.ofList 0 [(⟨0, Symbol.eof⟩, .accept)] #[]) Tree.context none = .ok p :=
    exists_create_iff.2 (by decide +kernel)
  obtain ⟨-, heq⟩ := create_eq_ok hp
  have haction : p.table.action? p.stack.path.top Symbol.eof = some .accept := by
    rw [heq]
    decide +kernel
  have hrow : ((p.table.row p.stack.path.top).all fun entry =>
      (p.table.simulate 1 p.stack.path entry.1).isOk) = true := by
    rw [heq]
    decide +kernel
  have hunfinished : p.isFinished = false := by rw [heq]
  refine ⟨p, hp, hunfinished, Table.exists_simulate_of_row 1 hrow, fun fuel hfuel => ?_⟩
  have hsimulate : p.table.simulate fuel p.stack.path Symbol.eof = .ok (some 0) := by
    obtain ⟨fuel, rfl⟩ := Nat.exists_eq_add_of_lt hfuel
    rw [Table.simulate, Table.simulateFrom, haction, heq]
    rfl
  have hfirst : p.Attempts fuel (Token.eof 0) [] Symbol.eof none := .first (by rw [heq]; rfl)
  obtain ⟨log, hprocess⟩ := hfirst.process_of_fits hunfinished hsimulate
  have hlimit : ¬ (0 < p.limit ∧ p.limit < 0) := by omega
  rw [hprocess, if_neg hlimit]
  have hmakes : (p.trying none 0).Makes (Token.eof 0).symbol [] (p.trying none 0) := .nil
  rcases advance_eq_of_accept hmakes haction hfuel log with ⟨q, hq, -⟩ | ⟨fault, hfault, hadvance⟩
  · rw [heq] at hq
    cases hq
  · rw [heq] at hfault
    obtain rfl := Except.error.inj hfault
    exact ⟨hsimulate, congrArg Step.outcome hadvance⟩

end Parser

end Lalr
