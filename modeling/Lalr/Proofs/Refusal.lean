import Lalr.Proofs.Soundness
import Lalr.Proofs.Translation

/-!
# Refused tokens

A token that is refused leaves the stack alone: it has been tried on the states only, and the context has at most
been asked what to make of it (`Parser.process_eq_failed`).  This needs nothing of the table, of the context or of
the parser, and it holds however many other symbols the context has named in place of the token.

Which functions of its context a parser calls is not written down anywhere.  `Context.traced` therefore keeps a
list of the calls beside the memory and otherwise does what the given context does.  Forgetting the list is a
faithful translation, so that a parser with the traced context does what the parser itself does
(`Parser.exists_traced_process`).
-/

namespace Lalr

/-! ### Calls to the context -/

/-- A call to a context, with what it is given besides the memory. -/
inductive Callback (N : Type) where
  /-- A node for a token. -/
  | terminal (token : Token)
  /-- A node for a reduction. -/
  | nonterminal (rule : Rule) (children : List N)
  /-- The root of an accepted input. -/
  | accept (node : N)
  /-- A token that does not fit. -/
  | reject (rejection : Rejection N)
  /-- A token that the table has not seen yet. -/
  | filter (symbol : Symbol) (text : String)

namespace Context

variable {σ N : Type}

/-- The context that also keeps the list of the calls to it, the last one first. -/
def traced (c : Context σ N) : Context (σ × List (Callback N)) N where
  terminal token memory := (c.terminal token memory.1).map id (·, .terminal token :: memory.2)
  nonterminal r children memory :=
    (c.nonterminal r children memory.1).map id (·, .nonterminal r children :: memory.2)
  accept node memory := (c.accept node memory.1, .accept node :: memory.2)
  reject rejection memory := (c.reject rejection memory.1).map id (·, .reject rejection :: memory.2)
  filter symbol text memory := (c.filter symbol text memory.1).map id (·, .filter symbol text :: memory.2)
  name symbol memory := c.name symbol memory.1

/-- Forgets the calls to the context. -/
def untracing (c : Context σ N) (t : Table) : Translation (σ × List (Callback N)) N σ N :=
  ⟨.refl, id, Prod.fst, t, c⟩

/-- The calls can be forgotten at any time. -/
lemma faithful_untracing (c : Context σ N) (t : Table) : (c.untracing t).Faithful t c.traced where
  table := .refl t
  terminal token memory := rfl
  nonterminal r children memory := by
    change c.nonterminal r (children.map id) memory.1 = c.nonterminal r children memory.1
    rw [List.map_id]
  accept node memory := rfl
  reject rejection memory := by
    change c.reject (rejection.map id) memory.1 = c.reject rejection memory.1
    rw [Rejection.map, List.map_id]
  filter symbol text memory := rfl
  name symbol memory := rfl

/-- What a context may make of its memory while it is shown tokens that do not fit. -/
def Rejects (c : Context σ N) (memory memory' : σ) : Prop :=
  ∃ rejection, (c.reject rejection memory).2 = memory'

/-- Rejections add only rejections to the calls of a traced context. -/
lemma exists_rejections {c : Context σ N} {memory memory' : σ × List (Callback N)}
    (h : Relation.ReflTransGen c.traced.Rejects memory memory') :
    ∃ rejections : List (Rejection N), memory'.2 = rejections.map .reject ++ memory.2 := by
  induction h with
  | refl => exact ⟨[], rfl⟩
  | tail _ hrejects ih =>
    obtain ⟨rejections, heq⟩ := ih
    obtain ⟨rejection, rfl⟩ := hrejects
    exact ⟨rejection :: rejections, congrArg (Callback.reject rejection :: ·) heq⟩

end Context

namespace Parser

variable {σ N : Type}

/-- The parser with a traced context, after the given calls to it. -/
def traced (p : Parser σ N) (callbacks : List (Callback N)) : Parser (σ × List (Callback N)) N where
  table := p.table
  context := p.context.traced
  memory := (p.memory, callbacks)
  stack := p.stack
  limit := p.limit
  isFinished := p.isFinished
  stats := p.stats

/-- Forgetting the calls undoes tracing. -/
lemma carry_untracing (p : Parser σ N) (callbacks : List (Callback N)) :
    (p.context.untracing p.table).carry (p.traced callbacks) = p := by
  change ({ p with stack := p.stack.translate id id } : Parser σ N) = p
  rw [Stack.translate_id]

/-- A parser with a traced context is a parser with the calls to its context. -/
lemma eq_traced_carry {c : Context σ N} {t : Table} {q : Parser (σ × List (Callback N)) N}
    (hcontext : q.context = c.traced) (htable : q.table = t) :
    q = ((c.untracing t).carry q).traced q.memory.2 := by
  obtain ⟨table, context, memory, stack, limit, isFinished, stats⟩ := q
  obtain rfl : context = c.traced := hcontext
  obtain rfl : table = t := htable
  change _ = ({ table, context := c.traced, memory, stack := stack.translate id id, limit, isFinished, stats } :
    Parser (σ × List (Callback N)) N)
  rw [Stack.translate_id]

/-- A parser with a traced context does what the parser itself does. -/
lemma exists_traced_process (p : Parser σ N) (callbacks : List (Callback N)) (fuel : Nat) (token : Token) :
    ∃ callbacks', (p.traced callbacks).process fuel token =
      ⟨(p.process fuel token).parser.traced callbacks', (p.process fuel token).outcome,
        (p.process fuel token).notices⟩ := by
  have hmatches : (p.traced callbacks).Matches ((p.traced callbacks).process fuel token).parser :=
    (p.traced callbacks).matches_after [(fuel, token)]
  have hparser := eq_traced_carry hmatches.context hmatches.table
  have hprocess := Translation.process_carry (T := p.context.untracing p.table) (p := p.traced callbacks)
    (p.context.faithful_untracing p.table) fuel token
  rw [carry_untracing] at hprocess
  refine ⟨((p.traced callbacks).process fuel token).parser.memory.2, ?_⟩
  rw [hprocess]
  generalize (p.traced callbacks).process fuel token = step at hparser
  obtain ⟨parser, outcome, notices⟩ := step
  have hnotices : notices.map (Notice.renumber .refl) = notices := by
    rw [funext Notice.renumber_refl, List.map_id']
  change _ = (⟨_, outcome.renumber .refl, notices.map (Notice.renumber .refl)⟩ : Step (σ × List (Callback N)) N)
  rw [Outcome.renumber_refl, hnotices]
  exact congrArg (Step.mk · outcome notices) hparser

/-! ### What a refused token leaves behind -/

/-- A token that is carried through is not refused any more. -/
lemma advance_ne_failed (token : Token) (fuel : Nat) (p : Parser σ N) (log : List Notice) (e : ParseError) :
    (advance token fuel p log).outcome ≠ .failed e := by
  induction fuel generalizing p log with
  | zero =>
    intro h
    cases h
  | succ fuel ih =>
    rw [advance]
    split
    · intro h
      cases h
    · split
      · intro h
        cases h
      · exact ih _ _
    · split
      · intro h
        cases h
      · intro h
        cases h
    · intro h
      cases h

/-- A token that is refused after some attempts ends the parse and has counted the attempts; the context has only
been shown rejections. -/
lemma attempt_eq_failed {fuel attempts : Nat} {tried : List Symbol} {token : Token} {p : Parser σ N}
    {log : List Notice} {e : ParseError} (h : (attempt fuel attempts tried token p log).outcome = .failed e) :
    ∃ memory recoveries, Relation.ReflTransGen p.context.Rejects p.memory memory ∧
      (attempt fuel attempts tried token p log).parser =
        { p with memory, isFinished := true, stats := { p.stats with recoveries } } := by
  induction attempts generalizing tried token p log with
  | zero => cases h
  | succ attempts ih =>
    rw [attempt] at h ⊢
    split at h
    · cases h
    · split at h
      · rename_i hlimit
        rw [if_pos hlimit]
        exact ⟨p.memory, p.stats.recoveries, .refl, rfl⟩
      · exact absurd h (advance_ne_failed token fuel p log e)
    · split at h
      · cases h
      · split at h
        rename_i answer memory hanswer
        have hrejects : p.context.Rejects p.memory memory := ⟨_, congrArg Prod.snd hanswer⟩
        split at h
        · rename_i symbol hnew
          obtain ⟨memory', recoveries, hchain, hparser⟩ := ih (p := p.retrying memory) h
          exact ⟨memory', recoveries, .head hrejects hchain, hparser⟩
        · rename_i hnone
          exact ⟨memory, p.stats.recoveries, .single hrejects, rfl⟩

/-- A refused token finds the parse over, or it ends the parse: then the context has seen the token and
rejections only, and nothing but its memory and the numbers of tokens and of attempts has changed. -/
lemma process_eq_failed {p : Parser σ N} {fuel : Nat} {token : Token} {e : ParseError}
    (h : (p.process fuel token).outcome = .failed e) :
    p.isFinished = true ∧ (p.process fuel token).parser = p ∨
      ∃ memory tokens recoveries,
        Relation.ReflTransGen p.context.Rejects (p.context.filter token.symbol token.text p.memory).2 memory ∧
        (p.process fuel token).parser =
          { p with memory, isFinished := true, stats := { p.stats with tokens, recoveries } } := by
  unfold process at h ⊢
  split at h
  · rename_i hfinished
    rw [if_pos hfinished]
    exact Or.inl ⟨hfinished, rfl⟩
  · rename_i hfinished
    rw [if_neg hfinished]
    cases hfilter : p.context.filter token.symbol token.text p.memory with
    | mk answer memory =>
      simp only [hfilter] at h ⊢
      cases answer with
      | none => cases h
      | some symbol =>
        obtain ⟨memory', recoveries, hchain, hparser⟩ := attempt_eq_failed (p := p.starting memory) h
        exact Or.inr ⟨memory', p.stats.tokens + 1, recoveries, hchain, hparser⟩

/-- A traced context that has been called by a refused token has seen the token and rejections only. -/
lemma callbacks_of_refused {p : Parser σ N} {fuel : Nat} {token : Token} {e : ParseError}
    (h : ((p.traced []).process fuel token).outcome = .failed e) :
    ∀ callback ∈ ((p.traced []).process fuel token).parser.memory.2,
      (∃ rejection, callback = .reject rejection) ∨ ∃ symbol text, callback = .filter symbol text := by
  intro callback hcallback
  rcases process_eq_failed h with ⟨-, hparser⟩ | ⟨memory, tokens, recoveries, hchain, hparser⟩
  · rw [hparser] at hcallback
    cases hcallback
  · rw [hparser] at hcallback
    obtain ⟨rejections, heq⟩ := Context.exists_rejections hchain
    rw [heq] at hcallback
    rcases List.mem_append.1 hcallback with hmem | hmem
    · obtain ⟨rejection, -, rfl⟩ := List.mem_map.1 hmem
      exact Or.inl ⟨rejection, rfl⟩
    · exact Or.inr ⟨token.symbol, token.text, List.mem_singleton.1 hmem⟩

/-- A call that refuses its token or accepts ends the parse. -/
lemma isFinished_of_process {p : Parser σ N} {fuel : Nat} {token : Token}
    (h : (∃ e, (p.process fuel token).outcome = .failed e) ∨
      (p.process fuel token).outcome = .progress .accepted) :
    (p.process fuel token).parser.isFinished = true := by
  rcases h with ⟨e, hfailed⟩ | haccepted
  · rcases process_eq_failed hfailed with ⟨hfinished, hparser⟩ | ⟨memory, tokens, recoveries, -, hparser⟩
    · rw [hparser]
      exact hfinished
    · rw [hparser]
  · rcases p.process_cases fuel token with ⟨-, -, -, hne⟩ | ⟨q, x, log, -, -, -, -, hadvance⟩
    · exact absurd haccepted hne
    · rw [hadvance] at haccepted ⊢
      obtain ⟨q', -, hcases⟩ := Parser.advance_cases { token with symbol := x } fuel q log
      rcases hcases with ⟨m, -, -, hshifted⟩ | ⟨-, haccept, -⟩ | ⟨-, hne⟩
      · rw [haccepted] at hshifted
        cases hshifted
      · obtain ⟨node, s, -, -, hparser⟩ := accept_eq_ok haccept
        rw [hparser]
      · exact absurd haccepted (hne _)

/-- A parser whose parse is over answers any later call with the same error and stays as it is. -/
lemma process_after_of_isFinished {p : Parser σ N} (h : p.isFinished = true) (calls : List (Nat × Token))
    (fuel : Nat) (token : Token) : (p.after calls).process fuel token = ⟨p, .failed .finished, []⟩ := by
  rw [(reads_of_isFinished h calls).2]
  exact process_of_isFinished h fuel token

/-- A call that refuses its token, whatever the table, the context and the stack are, leaves the stack and the
numbers of shifts and reductions as they were, and the context has made no node and accepted nothing: with a
traced context, which the parser cannot tell from its own, only the token itself and rejections have been shown to
it.  A refused token ends the parse, as acceptance does, and from then on, even if the memory and the limit are
changed from outside, every call is answered with the same error, changes nothing, and calls no function of the
context.  The end of the input is a token like any other. -/
theorem refused_token_leaves_stack (p : Parser σ N) (fuel : Nat) (token : Token) :
    (∀ e, (p.process fuel token).outcome = .failed e →
      (p.process fuel token).parser.stack = p.stack ∧
      (p.process fuel token).parser.stats.shifts = p.stats.shifts ∧
      (p.process fuel token).parser.stats.reductions = p.stats.reductions ∧
      ∃ callbacks, (p.traced []).process fuel token =
          ⟨(p.process fuel token).parser.traced callbacks, .failed e, (p.process fuel token).notices⟩ ∧
        ∀ callback ∈ callbacks,
          (∃ rejection, callback = .reject rejection) ∨ ∃ symbol text, callback = .filter symbol text) ∧
    ((∃ e, (p.process fuel token).outcome = .failed e) ∨
        (p.process fuel token).outcome = .progress .accepted →
      (p.process fuel token).parser.isFinished = true ∧
      ∀ (limit : Nat) (memory : σ) (callbacks : List (Callback N)) (calls : List (Nat × Token)) (fuel' : Nat)
        (token' : Token),
        let q : Parser σ N := { (p.process fuel token).parser with limit, memory }
        (q.after calls).process fuel' token' = ⟨q, .failed .finished, []⟩ ∧
        ((q.traced callbacks).after calls).process fuel' token' = ⟨q.traced callbacks, .failed .finished, []⟩) := by
  constructor
  · intro e hfailed
    obtain ⟨callbacks, htraced⟩ := p.exists_traced_process [] fuel token
    rw [hfailed] at htraced
    have hcallbacks := callbacks_of_refused (congrArg Step.outcome htraced)
    rw [htraced] at hcallbacks
    rcases process_eq_failed hfailed with ⟨-, hparser⟩ | ⟨memory, tokens, recoveries, -, hparser⟩
    · rw [hparser] at htraced ⊢
      exact ⟨rfl, rfl, rfl, callbacks, htraced, hcallbacks⟩
    · rw [hparser] at htraced ⊢
      exact ⟨rfl, rfl, rfl, callbacks, htraced, hcallbacks⟩
  · intro h
    have hfinished := isFinished_of_process h
    refine ⟨hfinished, fun limit memory callbacks calls fuel' token' => ?_⟩
    intro q
    have hq : q.isFinished = true := hfinished
    have htraced : (q.traced callbacks).isFinished = true := hfinished
    exact ⟨process_after_of_isFinished hq calls fuel' token',
      process_after_of_isFinished htraced calls fuel' token'⟩

/-- A parser for nested pairs refuses a token that closes one pair too many, though it has been tried on the
states after a reduction.  The three frames of the pair stay on the stack, the only reduction is still the one
inside the pair, and the end of the input, which would have been accepted, finds the parse over. -/
theorem refused_token_leaves_stack_nested :
    ∃ c p e, Grammar.nested.construct false = .ok c ∧ create c.table Tree.context none = .ok p ∧
      ∃ q, q = p.after [(9, ⟨⟨10⟩, "(", 0⟩), (9, ⟨⟨11⟩, ")", 1⟩)] ∧ q.stack.depth = 3 ∧
        q.stats.reductions = 1 ∧ (q.process 9 ⟨⟨11⟩, ")", 2⟩).outcome = .failed e ∧
        (q.process 9 ⟨⟨11⟩, ")", 2⟩).parser.stack = q.stack ∧
        (q.process 9 ⟨⟨11⟩, ")", 2⟩).parser.stats.reductions = 1 ∧
        ((q.process 9 ⟨⟨11⟩, ")", 2⟩).parser.process 9 (Token.eof 2)).outcome = .failed .finished := by
  have hrun : (do
      let c ← (Grammar.nested.construct false).toOption
      let p ← (create c.table Tree.context none).toOption
      let q := p.after [(9, ⟨⟨10⟩, "(", 0⟩), (9, ⟨⟨11⟩, ")", 1⟩)]
      some (q.stack.depth, q.stats.reductions, (q.process 9 ⟨⟨11⟩, ")", 2⟩).outcome)) =
      some (3, 1, .failed (.unexpected [Symbol.eof] ⟨11⟩)) := by decide +kernel
  obtain ⟨c, hc, hrun⟩ := Option.bind_eq_some_iff.1 hrun
  obtain ⟨p, hp, hrun⟩ := Option.bind_eq_some_iff.1 hrun
  obtain ⟨hdepth, hrun⟩ := Prod.mk.inj (Option.some.inj hrun)
  obtain ⟨hreductions, hfailed⟩ := Prod.mk.inj hrun
  generalize hq : p.after [(9, ⟨⟨10⟩, "(", 0⟩), (9, ⟨⟨11⟩, ")", 1⟩)] = q at hdepth hreductions hfailed
  obtain ⟨hrefused, hover⟩ := refused_token_leaves_stack q 9 ⟨⟨11⟩, ")", 2⟩
  obtain ⟨hstack, -, hkept, -⟩ := hrefused _ hfailed
  obtain ⟨-, hlater⟩ := hover (Or.inl ⟨_, hfailed⟩)
  have hnext := (hlater (q.process 9 ⟨⟨11⟩, ")", 2⟩).parser.limit (q.process 9 ⟨⟨11⟩, ")", 2⟩).parser.memory
    [] [] 9 (Token.eof 2)).1
  exact ⟨c, p, _, toOption_eq_some_iff.1 hc, toOption_eq_some_iff.1 hp, q, hq.symm, hdepth, hreductions, hfailed,
    hstack, hkept.trans hreductions, congrArg Step.outcome hnext⟩

end Parser

end Lalr
