import Lalr.Proofs.Run

/-!
# Sequences of calls

A parser is given one token after the other.  `Parser.after` is the parser after a sequence of calls, and
`Parser.Reads` says which tokens the calls have shifted, each under the symbol that it was parsed as.

What holds of a parser and of the tokens that it has read is proved by looking at single calls
(`Parser.exists_reads_of_process`).  Most such properties do not even depend on how a call strings its
reductions together: they depend on the table, the context, the limit and the stack only, reductions keep them,
and a shift adds its token.  `Parser.Invariant` collects these conditions, and from them it follows what one
call does (`Parser.Invariant.process_cases`) and what any number of calls do
(`Parser.Invariant.exists_reads_or_accepts`, `Parser.Invariant.after`).
-/

namespace Lalr

namespace Parser

variable {σ N : Type}

/-- The parser after calls with the given bounds and tokens, one after the other. -/
def after (p : Parser σ N) : List (Nat × Token) → Parser σ N
  | [] => p
  | (fuel, token) :: calls => (p.process fuel token).parser.after calls

/-- How the calls end, one after the other. -/
def outcomes (p : Parser σ N) : List (Nat × Token) → List Outcome
  | [] => []
  | (fuel, token) :: calls =>
    (p.process fuel token).outcome :: (p.process fuel token).parser.outcomes calls

/-- The tokens that are shifted by a sequence of calls, each with the symbol that it is parsed as and with its
own text and position. -/
inductive Reads : Parser σ N → List (Nat × Token) → List Token → Prop
  /-- No calls read nothing. -/
  | nil {p : Parser σ N} : Reads p [] []
  /-- A call that shifts its token reads it. -/
  | shifted {p : Parser σ N} {fuel : Nat} {token : Token} {x : Symbol} {calls : List (Nat × Token)}
      {tokens : List Token} (h : (p.process fuel token).outcome = .progress .shifted)
      (hx : p.ParsedAs fuel token x) (hrest : Reads (p.process fuel token).parser calls tokens) :
      Reads p ((fuel, token) :: calls) ({ token with symbol := x } :: tokens)
  /-- Any other call reads nothing. -/
  | other {p : Parser σ N} {fuel : Nat} {token : Token} {calls : List (Nat × Token)} {tokens : List Token}
      (h : (p.process fuel token).outcome ≠ .progress .shifted)
      (hrest : Reads (p.process fuel token).parser calls tokens) : Reads p ((fuel, token) :: calls) tokens

/-- A sequence of calls reads one list of tokens only. -/
lemma Reads.unique {p : Parser σ N} {calls : List (Nat × Token)} {tokens tokens' : List Token}
    (h : p.Reads calls tokens) (h' : p.Reads calls tokens') : tokens = tokens' := by
  induction h generalizing tokens' with
  | nil =>
    cases h'
    rfl
  | shifted h hx _ ih =>
    cases h' with
    | shifted _ hx' hrest' => rw [hx.unique hx', ih hrest']
    | other hne _ => exact absurd h hne
  | other hne _ ih =>
    cases h' with
    | shifted h _ _ => exact absurd h hne
    | other _ hrest' => exact ih hrest'

/-- A parser whose parse is over reads nothing and stays as it is. -/
lemma reads_of_isFinished {p : Parser σ N} (h : p.isFinished = true) (calls : List (Nat × Token)) :
    p.Reads calls [] ∧ p.after calls = p := by
  induction calls with
  | nil => exact ⟨.nil, rfl⟩
  | cons call calls ih =>
    obtain ⟨fuel, token⟩ := call
    have hprocess := process_of_isFinished h fuel token
    refine ⟨.other ?_ ?_, ?_⟩
    · rw [hprocess]
      exact nofun
    · rw [hprocess]
      exact ih.1
    · rw [after, hprocess]
      exact ih.2

/-- What a call that shifts carries over to one more token, and what any other call keeps unless it ends the
parse, holds after any calls of the tokens that they have read, unless the parse is over. -/
lemma exists_reads_of_process {I : Parser σ N → List Token → Prop}
    (hprocess : ∀ {p : Parser σ N} {tokens : List Token}, I p tokens → ∀ (fuel : Nat) (token : Token),
      (∃ x, p.ParsedAs fuel token x ∧ (p.process fuel token).outcome = .progress .shifted ∧
          I (p.process fuel token).parser (tokens ++ [{ token with symbol := x }])) ∨
        (p.process fuel token).outcome ≠ .progress .shifted ∧
          ((p.process fuel token).parser.isFinished = true ∨ I (p.process fuel token).parser tokens))
    {p : Parser σ N} {tokens : List Token} (h : I p tokens) (calls : List (Nat × Token)) :
    ∃ read, p.Reads calls read ∧ ((p.after calls).isFinished = true ∨ I (p.after calls) (tokens ++ read)) := by
  induction calls generalizing p tokens with
  | nil => exact ⟨[], .nil, Or.inr (by simpa [after] using h)⟩
  | cons call calls ih =>
    obtain ⟨fuel, token⟩ := call
    rw [after]
    rcases hprocess h fuel token with ⟨x, hx, hshifted, hstep⟩ | ⟨hother, hfinished | hstep⟩
    · obtain ⟨read, hread, hafter⟩ := ih hstep
      exact ⟨_, .shifted hshifted hx hread, by simpa using hafter⟩
    · obtain ⟨hread, hafter⟩ := reads_of_isFinished hfinished calls
      refine ⟨[], .other hother hread, Or.inl ?_⟩
      rw [hafter]
      exact hfinished
    · obtain ⟨read, hread, hafter⟩ := ih hstep
      exact ⟨read, .other hother hread, hafter⟩

/-! ### Invariants of single steps -/

/-- The property depends on the table, the context, the limit and the stack of the parser only, reductions keep
it, and a shift adds its token. -/
structure Invariant (I : Parser σ N → List Token → Prop) : Prop where
  of_matches : ∀ {p q : Parser σ N} {tokens : List Token}, I p tokens → p.Matches q → q.stack = p.stack →
    I q tokens
  reduce : ∀ {p q : Parser σ N} {tokens : List Token} {x : Symbol}, I p tokens → Reduces x p q → I q tokens
  shift : ∀ {p : Parser σ N} {tokens : List Token} {token : Token} {m : Nat}, I p tokens →
    p.table.action? p.stack.top token.symbol = some (.shift m) → I (p.shift token m) (tokens ++ [token])

namespace Invariant

variable {I : Parser σ N → List Token → Prop} (hI : Invariant I) {p : Parser σ N} {tokens : List Token}
include hI

/-- Chains of reductions keep an invariant. -/
lemma of_reduces (tokens : List Token) (h : I p tokens) {x : Symbol} {q : Parser σ N}
    (hq : Relation.ReflTransGen (Reduces x) p q) : I q tokens := by
  induction hq with
  | refl => exact h
  | tail _ hreduces ih => exact hI.reduce ih hreduces

/-- Carrying a token through shifts it, accepts in a parser with the invariant, or reports a fault. -/
lemma advance_cases (h : I p tokens) (token : Token) (fuel : Nat) (log : List Notice) :
    let step := advance token fuel p log
    step.outcome = .progress .shifted ∧ I step.parser (tokens ++ [token]) ∨
      (∃ q, I q tokens ∧ q.table.action? q.stack.top token.symbol = some .accept ∧
        q.accept = .ok step.parser ∧ step.outcome = .progress .accepted) ∨
      (∀ progress, step.outcome ≠ .progress progress) ∧ I step.parser tokens := by
  obtain ⟨q, hchain, hcases⟩ := Parser.advance_cases token fuel p log
  have hq := hI.of_reduces tokens h hchain
  rcases hcases with ⟨m, haction, hparser, houtcome⟩ | ⟨haction, haccept, houtcome⟩ | ⟨hparser, houtcome⟩
  · exact Or.inl ⟨houtcome, hparser ▸ hI.shift hq haction⟩
  · exact Or.inr (Or.inl ⟨q, hq, haction, haccept, houtcome⟩)
  · exact Or.inr (Or.inr ⟨houtcome, hparser ▸ hq⟩)

/-- A call shifts its token under the symbol that it is parsed as, accepts in a parser with the invariant, or
does neither. -/
lemma process_cases (h : I p tokens) (fuel : Nat) (token : Token) :
    let step := p.process fuel token
    (∃ x, p.ParsedAs fuel token x ∧ step.outcome = .progress .shifted ∧
        I step.parser (tokens ++ [{ token with symbol := x }])) ∨
      (∃ q x, I q tokens ∧ q.table.action? q.stack.top x = some .accept ∧ q.accept = .ok step.parser ∧
        step.outcome = .progress .accepted) ∨
      step.outcome ≠ .progress .shifted ∧ step.outcome ≠ .progress .accepted ∧ I step.parser tokens := by
  rcases p.process_cases fuel token with
    ⟨hmatches, hstack, hshifted, haccepted⟩ | ⟨q, x, log, hmatches, hstack, -, hx, heq⟩
  · exact Or.inr (Or.inr ⟨hshifted, haccepted, hI.of_matches h hmatches hstack⟩)
  · have hq := hI.of_matches h hmatches hstack
    rcases hI.advance_cases hq { token with symbol := x } fuel log with
      ⟨houtcome, hstep⟩ | ⟨q', hq', haction, haccept, houtcome⟩ | ⟨houtcome, hstep⟩
    · exact Or.inl ⟨x, hx, heq ▸ houtcome, heq ▸ hstep⟩
    · exact Or.inr (Or.inl ⟨q', x, hq', haction, heq ▸ haccept, heq ▸ houtcome⟩)
    · exact Or.inr (Or.inr ⟨heq ▸ houtcome _, heq ▸ houtcome _, heq ▸ hstep⟩)

/-- After any calls the invariant holds of the tokens that they have read, also if the last one was refused, unless
a call has accepted: then it held of the parser that accepted. -/
lemma exists_reads_or_accepts (h : I p tokens) (calls : List (Nat × Token)) :
    ∃ read, p.Reads calls read ∧
      (.progress .accepted ∉ p.outcomes calls ∧ I (p.after calls) (tokens ++ read) ∨
        .progress .accepted ∈ p.outcomes calls ∧ ∃ q, I q (tokens ++ read) ∧ q.accept = .ok (p.after calls)) := by
  induction calls generalizing p tokens with
  | nil => exact ⟨[], .nil, Or.inl ⟨List.not_mem_nil, by simpa [after] using h⟩⟩
  | cons call calls ih =>
    obtain ⟨fuel, token⟩ := call
    simp only [after, outcomes, List.mem_cons]
    rcases hI.process_cases h fuel token with
      ⟨x, hx, hshifted, hstep⟩ | ⟨q, x, hq, -, haccept, haccepted⟩ | ⟨hshifted, haccepted, hstep⟩
    · obtain ⟨read, hread, hcases⟩ := ih hstep
      refine ⟨_, .shifted hshifted hx hread, ?_⟩
      simpa [hshifted] using hcases
    · obtain ⟨node, s, -, -, heq⟩ := accept_eq_ok haccept
      obtain ⟨hread, hafter⟩ := reads_of_isFinished (p := (p.process fuel token).parser) (by rw [heq]) calls
      refine ⟨[], .other (by simp [haccepted]) hread, Or.inr ⟨Or.inl haccepted.symm, q, by simpa using hq, ?_⟩⟩
      rw [hafter]
      exact haccept
    · obtain ⟨read, hread, hcases⟩ := ih hstep
      refine ⟨read, .other hshifted hread, ?_⟩
      simpa [Ne.symm haccepted] using hcases

/-- After any calls the parse is over, or the invariant holds of the tokens that they have read. -/
lemma exists_reads (h : I p tokens) (calls : List (Nat × Token)) :
    ∃ read, p.Reads calls read ∧ ((p.after calls).isFinished = true ∨ I (p.after calls) (tokens ++ read)) := by
  obtain ⟨read, hread, ⟨-, hafter⟩ | ⟨-, q, -, haccept⟩⟩ := hI.exists_reads_or_accepts h calls
  · exact ⟨read, hread, Or.inr hafter⟩
  · obtain ⟨node, s, -, -, heq⟩ := accept_eq_ok haccept
    exact ⟨read, hread, Or.inl (by rw [heq])⟩

omit hI in
/-- An invariant of the parser alone that acceptance keeps too holds after any calls. -/
lemma after {I : Parser σ N → Prop} (hI : Invariant fun p _ => I p)
    (haccept : ∀ {p q : Parser σ N}, I p → p.accept = .ok q → I q) {p : Parser σ N} (h : I p)
    (calls : List (Nat × Token)) : I (p.after calls) := by
  induction calls generalizing p with
  | nil => exact h
  | cons call calls ih =>
    refine ih ?_
    rcases @process_cases σ N _ hI p [] h call.1 call.2 with
      ⟨x, -, -, hstep⟩ | ⟨q, x, hq, -, hok, -⟩ | ⟨-, -, hstep⟩
    · exact hstep
    · exact haccept hq hok
    · exact hstep

end Invariant

/-- Calls keep the table, the context and the limit. -/
lemma matches_after (p : Parser σ N) (calls : List (Nat × Token)) : p.Matches (p.after calls) := by
  have hI : Invariant fun (q : Parser σ N) _ => p.Matches q :=
    { of_matches := fun h hmatches _ => h.trans hmatches
      reduce := fun h hq => h.trans hq.matches
      shift := fun h _ => h.trans ⟨rfl, rfl, rfl⟩ }
  refine hI.after (fun {q q'} h haccept => ?_) (.refl p) calls
  obtain ⟨node, s, -, -, rfl⟩ := accept_eq_ok haccept
  exact h.trans ⟨rfl, rfl, rfl⟩

/-- Calls keep the context. -/
lemma context_after (p : Parser σ N) (calls : List (Nat × Token)) : (p.after calls).context = p.context :=
  (p.matches_after calls).context

end Parser

end Lalr
