import Lalr.Proofs.Prediction
import Lalr.Proofs.Refusal
import Lalr.Proofs.Trial

/-!
# The attempts of a call

A call first tries the symbol that the context has named for its token.  A symbol that does not fit is shown to the
context, which may answer with another symbol; the answer is tried in its place unless it has been tried before.
`Parser.Attempts` says which symbol a call tries after which others, and with what memory of the context.  It is
about the table, the stack and the context alone, so that it says nothing about how the call is programmed;
`Parser.Attempts.process_eq` joins the two.

No symbol is tried twice, and there are finitely many, so the attempts of a call come to an end whatever the context
answers (`Parser.Attempts.exists_last`).  The last symbol fits, and then the token is carried through under it
(`Parser.Carries`), or it is refused, or trying it fails (`Parser.Gives`).  `Parser.rejections` lists what a call
shows to the context on the way.
-/

namespace Lalr

namespace Parser

variable {σ N : Type}

/-! ### One attempt after the other -/

/-- The parser that tries a symbol for a token, after a number of other symbols and with the memory that the context
has been left with. -/
def trying (p : Parser σ N) (memory : σ) (retries : Nat) : Parser σ N :=
  { p with
    memory
    stats := { p.stats with tokens := p.stats.tokens + 1, recoveries := p.stats.recoveries + retries } }

/-- The call tries the symbol, with the given memory of the context, after the listed symbols have not fitted. -/
inductive Attempts (p : Parser σ N) (fuel : Nat) (token : Token) : List Symbol → Symbol → σ → Prop
  /-- The context has named the symbol before the table sees the token. -/
  | first {x : Symbol} {memory : σ}
      (hfilter : p.context.filter token.symbol token.text p.memory = (some x, memory)) :
      Attempts p fuel token [] x memory
  /-- The context has answered with the symbol when it was shown the one before, and it is a new one. -/
  | retry {unfit symbols : List Symbol} {x y : Symbol} {memory memory' : σ}
      (h : Attempts p fuel token unfit x memory)
      (hunfit : p.table.simulate fuel p.stack.path x = .ok none)
      (hexpected : p.expected fuel = .ok symbols)
      (hanswer : p.context.reject (p.rejection symbols { token with symbol := x }) memory = (some y, memory'))
      (hnew : y ∉ unfit ++ [x]) : Attempts p fuel token (unfit ++ [x]) y memory'

/-- The last symbol that a call tries does not fit: the parser after the call, and how the call ends. -/
inductive Gives (p : Parser σ N) (fuel : Nat) (token : Token) (unfit : List Symbol) (x : Symbol) (memory : σ) :
    Parser σ N → Outcome → Prop
  /-- The context gives up, or answers with a symbol that has been tried. -/
  | up {symbols : List Symbol} {answer : Option Symbol} {memory' : σ}
      (hunfit : p.table.simulate fuel p.stack.path x = .ok none)
      (hexpected : p.expected fuel = .ok symbols)
      (hanswer : p.context.reject (p.rejection symbols { token with symbol := x }) memory = (answer, memory'))
      (hold : ∀ y ∈ answer, y ∈ unfit ++ [x]) :
      Gives p fuel token unfit x memory { p.trying memory' unfit.length with isFinished := true }
        (.failed (.unexpected symbols x))
  /-- Trying the symbol fails. -/
  | faultOfTrial {f : Fault} (h : p.table.simulate fuel p.stack.path x = .error f) :
      Gives p fuel token unfit x memory (p.trying memory unfit.length) (.fault f)
  /-- The search for the symbols that would fit fails. -/
  | faultOfSearch {f : Fault} (hunfit : p.table.simulate fuel p.stack.path x = .ok none)
      (h : p.expected fuel = .error f) :
      Gives p fuel token unfit x memory (p.trying memory unfit.length) (.fault f)

namespace Attempts

variable {p : Parser σ N} {fuel : Nat} {token : Token} {unfit : List Symbol} {x : Symbol} {memory : σ}

/-- No symbol is tried twice. -/
lemma nodup (h : p.Attempts fuel token unfit x memory) : (unfit ++ [x]).Nodup := by
  induction h with
  | first _ => exact List.nodup_singleton _
  | retry _ _ _ _ hnew ih => exact List.nodup_append.2 ⟨ih, List.nodup_singleton _, by grind⟩

/-- A call tries no more symbols than there are. -/
lemma length_lt (h : p.Attempts fuel token unfit x memory) : unfit.length < symbolCount := by
  have hlength := length_le_symbolCount h.nodup
  rw [List.length_append, List.length_singleton] at hlength
  exact hlength

/-- Every symbol but the last one does not fit. -/
lemma simulate_eq_none (h : p.Attempts fuel token unfit x memory) :
    ∀ y ∈ unfit, p.table.simulate fuel p.stack.path y = .ok none := by
  induction h with
  | first _ => exact nofun
  | retry _ hunfit _ _ _ ih =>
    intro y hy
    rcases List.mem_append.1 hy with hmem | hmem
    · exact ih y hmem
    · rw [List.mem_singleton.1 hmem]
      exact hunfit

/-- The first symbol that is tried is the one that the context has named. -/
lemma head?_eq (h : p.Attempts fuel token unfit x memory) :
    (unfit ++ [x]).head? = (p.context.filter token.symbol token.text p.memory).1 := by
  induction h with
  | first hfilter => rw [hfilter]; rfl
  | retry _ _ _ _ _ ih => rw [← ih, List.head?_append_of_ne_nil _ (by simp)]

/-- The attempts of a call come to an end: the last symbol fits, or the call gives up. -/
lemma exists_last (h : p.Attempts fuel token unfit x memory) :
    ∃ unfit' x' memory', p.Attempts fuel token unfit' x' memory' ∧
      ((∃ peak, p.table.simulate fuel p.stack.path x' = .ok (some peak)) ∨
        ∃ q outcome, p.Gives fuel token unfit' x' memory' q outcome) := by
  -- the symbols that have not been tried yet bound the further attempts
  obtain ⟨n, hn⟩ : ∃ n, symbolCount ≤ unfit.length + n := ⟨symbolCount, Nat.le_add_left _ _⟩
  induction n generalizing unfit x memory with
  | zero => exact absurd h.length_lt (Nat.not_lt.2 hn)
  | succ n ih =>
    cases hsimulate : p.table.simulate fuel p.stack.path x with
    | error f => exact ⟨unfit, x, memory, h, Or.inr ⟨_, _, .faultOfTrial hsimulate⟩⟩
    | ok result =>
      cases result with
      | some peak => exact ⟨unfit, x, memory, h, Or.inl ⟨peak, hsimulate⟩⟩
      | none =>
        cases hexpected : p.expected fuel with
        | error f => exact ⟨unfit, x, memory, h, Or.inr ⟨_, _, .faultOfSearch hsimulate hexpected⟩⟩
        | ok symbols =>
          cases hanswer : p.context.reject (p.rejection symbols { token with symbol := x }) memory with
          | mk answer memory' =>
            by_cases hold : ∀ y ∈ answer, y ∈ unfit ++ [x]
            · exact ⟨unfit, x, memory, h, Or.inr ⟨_, _, .up hsimulate hexpected hanswer hold⟩⟩
            · push Not at hold
              obtain ⟨y, rfl, hnew⟩ := hold
              refine ih (.retry h hsimulate hexpected hanswer hnew) ?_
              rw [List.length_append, List.length_singleton]
              omega

end Attempts

/-! ### What a call makes of its attempts -/

/-- A call whose token the context drops only keeps what the context remembers. -/
lemma process_of_dropped {p : Parser σ N} (hunfinished : p.isFinished = false) {token : Token} {memory : σ}
    (hfilter : p.context.filter token.symbol token.text p.memory = (none, memory)) (fuel : Nat) :
    ∃ notices, p.process fuel token = ⟨{ p with memory }, .progress .skipped, notices⟩ := by
  rw [process, if_neg (by simp [hunfinished]), hfilter]
  exact ⟨_, rfl⟩

section

variable {fuel : Nat} {tried symbols : List Symbol} (token : Token) (p : Parser σ N)

/-- A symbol that fits is carried through, unless the stack would rise above its limit. -/
lemma attempt_of_fits {peak : Nat} (hpeak : p.table.simulate fuel p.stack.path token.symbol = .ok (some peak))
    (attempts : Nat) (log : List Notice) :
    attempt fuel (attempts + 1) tried token p log =
      if 0 < p.limit ∧ p.limit < peak then
        ⟨{ p with isFinished := true }, .failed (.stackOverflow p.limit), log.reverse⟩
      else advance token fuel p log := by
  rw [attempt]
  simp only [hpeak]

/-- A symbol that does not fit is replaced by a new one. -/
lemma attempt_of_retry {y : Symbol} {memory : σ}
    (hunfit : p.table.simulate fuel p.stack.path token.symbol = .ok none) (hexpected : p.expected fuel = .ok symbols)
    (hanswer : p.context.reject (p.rejection symbols token) p.memory = (some y, memory)) (hnew : y ∉ tried)
    (attempts : Nat) (log : List Notice) :
    ∃ log', attempt fuel (attempts + 1) tried token p log =
      attempt fuel attempts (tried ++ [y]) { token with symbol := y } (p.retrying memory) log' := by
  have hfilter : (some y).filter (fun symbol => !tried.contains symbol) = some y := by simpa using hnew
  unfold rejection at hanswer
  rw [attempt]
  simp only [hunfit, hexpected, hanswer, hfilter]
  exact ⟨_, rfl⟩

/-- A symbol that does not fit is refused when there is no new one to replace it. -/
lemma attempt_of_refused {answer : Option Symbol} {memory : σ}
    (hunfit : p.table.simulate fuel p.stack.path token.symbol = .ok none) (hexpected : p.expected fuel = .ok symbols)
    (hanswer : p.context.reject (p.rejection symbols token) p.memory = (answer, memory))
    (hold : ∀ y ∈ answer, y ∈ tried) (attempts : Nat) (log : List Notice) :
    ∃ notices, attempt fuel (attempts + 1) tried token p log =
      ⟨{ p with memory, isFinished := true }, .failed (.unexpected symbols token.symbol), notices⟩ := by
  have hfilter : answer.filter (fun symbol => !tried.contains symbol) = none := by
    refine Option.filter_eq_none_iff.2 fun y hy => ?_
    simpa using hold y hy
  unfold rejection at hanswer
  rw [attempt]
  simp only [hunfit, hexpected, hanswer, hfilter]
  exact ⟨_, rfl⟩

/-- A symbol that cannot be tried, or whose rejection cannot be reported, makes the call fault. -/
lemma attempt_of_fault {f : Fault}
    (h : p.table.simulate fuel p.stack.path token.symbol = .error f ∨
      p.table.simulate fuel p.stack.path token.symbol = .ok none ∧ p.expected fuel = .error f)
    (attempts : Nat) (log : List Notice) :
    ∃ notices, attempt fuel (attempts + 1) tried token p log = ⟨p, .fault f, notices⟩ := by
  rw [attempt]
  rcases h with h | ⟨hunfit, h⟩
  · simp only [h]
    exact ⟨_, rfl⟩
  · simp only [hunfit, h]
    exact ⟨_, rfl⟩

end

namespace Attempts

variable {p : Parser σ N} {fuel : Nat} {token : Token} {unfit : List Symbol} {x : Symbol} {memory : σ}

/-- A call that tries a symbol goes on with it as if it had begun with it, except that it does not come back to the
symbols before. -/
lemma process_eq (h : p.Attempts fuel token unfit x memory) (hunfinished : p.isFinished = false) :
    ∃ attempts log, symbolCount = unfit.length + (attempts + 1) ∧
      p.process fuel token = attempt fuel (attempts + 1) (unfit ++ [x]) { token with symbol := x }
        (p.trying memory unfit.length) log := by
  induction h with
  | first hfilter => exact ⟨UInt32.size - 1, [], rfl, process_eq_attempt hunfinished hfilter fuel⟩
  | @retry unfit symbols x y memory memory' h hunfit hexpected hanswer hnew ih =>
    obtain ⟨attempts, log, hcount, hprocess⟩ := ih
    obtain ⟨log', hretry⟩ := attempt_of_retry { token with symbol := x } (p.trying memory unfit.length)
      hunfit hexpected hanswer hnew attempts log
    have hlength := (h.retry hunfit hexpected hanswer hnew).length_lt
    rw [List.length_append, List.length_singleton] at hlength ⊢
    obtain ⟨attempts, rfl⟩ : ∃ n, attempts = n + 1 := ⟨attempts - 1, by omega⟩
    exact ⟨attempts, log', by omega, hprocess.trans hretry⟩

/-- A call whose symbol fits carries its token through, unless the stack would rise above its limit. -/
lemma process_of_fits (h : p.Attempts fuel token unfit x memory) (hunfinished : p.isFinished = false) {peak : Nat}
    (hpeak : p.table.simulate fuel p.stack.path x = .ok (some peak)) :
    ∃ log, p.process fuel token =
      if 0 < p.limit ∧ p.limit < peak then
        ⟨{ p.trying memory unfit.length with isFinished := true }, .failed (.stackOverflow p.limit), log.reverse⟩
      else advance { token with symbol := x } fuel (p.trying memory unfit.length) log := by
  obtain ⟨attempts, log, -, hprocess⟩ := h.process_eq hunfinished
  refine ⟨log, hprocess.trans ?_⟩
  exact attempt_of_fits { token with symbol := x } (p.trying memory unfit.length) hpeak attempts log

/-- A call whose last symbol does not fit ends without having touched the stack. -/
lemma process_of_gives (h : p.Attempts fuel token unfit x memory) (hunfinished : p.isFinished = false)
    {q : Parser σ N} {outcome : Outcome} (hgives : p.Gives fuel token unfit x memory q outcome) :
    ∃ notices, p.process fuel token = ⟨q, outcome, notices⟩ := by
  obtain ⟨attempts, log, -, hprocess⟩ := h.process_eq hunfinished
  rw [hprocess]
  cases hgives with
  | up hunfit hexpected hanswer hold =>
    exact attempt_of_refused { token with symbol := x } (p.trying memory unfit.length) hunfit hexpected hanswer hold
      attempts log
  | faultOfTrial hf =>
    exact attempt_of_fault { token with symbol := x } (p.trying memory unfit.length) (Or.inl hf) attempts log
  | faultOfSearch hunfit hf =>
    exact attempt_of_fault { token with symbol := x } (p.trying memory unfit.length) (Or.inr ⟨hunfit, hf⟩)
      attempts log

end Attempts

/-! ### Carrying a token through -/

/-- A token that fits has been carried through: the parser after the call, and how the call ends. -/
inductive Carries (p : Parser σ N) (token : Token) : Parser σ N → Outcome → Prop
  /-- After the reductions the token is shifted. -/
  | shift {q : Parser σ N} {m : Nat} (hchain : Relation.ReflTransGen (Reduces token.symbol) p q)
      (hshift : q.table.action? q.stack.top token.symbol = some (.shift m)) :
      Carries p token (q.shift token m) (.progress .shifted)
  /-- After the reductions the only node on the stack is accepted. -/
  | accept {q r : Parser σ N} (hchain : Relation.ReflTransGen (Reduces token.symbol) p q)
      (haction : q.table.action? q.stack.top token.symbol = some .accept) (haccept : q.accept = .ok r) :
      Carries p token r (.progress .accepted)
  /-- After the reductions the table accepts, but there is not just one node on the stack. -/
  | fault {q : Parser σ N} {f : Fault} (hchain : Relation.ReflTransGen (Reduces token.symbol) p q)
      (haction : q.table.action? q.stack.top token.symbol = some .accept) (hdepth : q.stack.depth ≠ 1)
      (haccept : q.accept = .error f) : Carries p token q (.fault f)
  /-- The stack would rise above its limit. -/
  | overflow (hlimit : 0 < p.limit) (htakes : p.table.Takes token.symbol p.stack.path) :
      Carries p token { p with isFinished := true } (.failed (.stackOverflow p.limit))

/-- The reductions that a parser makes are a chain of reductions. -/
lemma Makes.reduces {x : Symbol} {p q : Parser σ N} {steps : List (Reduction σ N)} (h : p.Makes x steps q) :
    Relation.ReflTransGen (Reduces x) p q := by
  induction h with
  | nil => exact .refl
  | cons hk hreduce _ ih => exact .head ⟨_, _, hk, hreduce⟩ ih

/-- Accepting fails only when there is not just one node on the stack. -/
lemma depth_ne_one_of_accept {p : Parser σ N} {f : Fault} (h : p.accept = .error f) : p.stack.depth ≠ 1 := by
  intro hdepth
  rw [← Stack.length_nodes_eq_depth] at hdepth
  obtain ⟨_, _, _, ⟨⟨top, below, depth, hbelow⟩, nodes, hnodes⟩, _, _, _⟩ := p
  obtain ⟨node, rfl⟩ := List.length_eq_one_iff.1 hdepth
  obtain ⟨state, rfl⟩ := List.length_eq_one_iff.1 hnodes.symm
  cases h

/-- A token whose symbol fits is carried through. -/
lemma carries_of_fits (p : Parser σ N) (token : Token) {fuel peak : Nat}
    (hpeak : p.table.simulate fuel p.stack.path token.symbol = .ok (some peak)) (log : List Notice) {step : Step σ N}
    (hstep : step = if 0 < p.limit ∧ p.limit < peak then
        ⟨{ p with isFinished := true }, .failed (.stackOverflow p.limit), log.reverse⟩
      else advance token fuel p log) : p.Carries token step.parser step.outcome := by
  subst hstep
  split
  · rename_i hlimit
    exact .overflow hlimit.1 ((Table.isSome_iff_takes hpeak).1 rfl)
  · obtain ⟨trail, path, htrail, hlength, hend⟩ := Table.exists_trail_of_simulateFrom hpeak
    obtain ⟨steps, q, hmakes, rfl, rfl, htable⟩ := exists_makes_of_trail htrail rfl rfl
    rw [List.length_map] at hlength
    rcases hend with ⟨m, hm, -⟩ | ⟨haction, -⟩ | ⟨-, heq⟩
    · rw [advance_eq_of_shift hmakes (htable ▸ hm) hlength]
      exact .shift hmakes.reduces (htable ▸ hm)
    · rcases advance_eq_of_accept hmakes (htable ▸ haction) hlength log with
        ⟨r, haccept, hadvance⟩ | ⟨f, haccept, hadvance⟩
      · rw [hadvance]
        exact .accept hmakes.reduces (htable ▸ haction) haccept
      · rw [hadvance]
        exact .fault hmakes.reduces (htable ▸ haction) (depth_ne_one_of_accept haccept) haccept
    · cases heq

end Parser

/-! ### What the context is shown -/

/-- The rejection that a callback shows to the context, if it does show one. -/
def Callback.rejection? {N : Type} : Callback N → Option (Rejection N)
  | .reject rejection => some rejection
  | _ => none

namespace Context

variable {σ N : Type} {c : Context σ N} {memory memory' : σ} {answer : Option Symbol}

/-- A traced context answers a token as the context does, and has been shown it. -/
lemma filter_traced {symbol : Symbol} {text : String} (h : c.filter symbol text memory = (answer, memory'))
    (callbacks : List (Callback N)) :
    c.traced.filter symbol text (memory, callbacks) = (answer, memory', .filter symbol text :: callbacks) :=
  congrArg (Prod.map id (·, Callback.filter symbol text :: callbacks)) h

/-- A traced context answers a rejection as the context does, and has been shown it. -/
lemma reject_traced {rejection : Rejection N} (h : c.reject rejection memory = (answer, memory'))
    (callbacks : List (Callback N)) :
    c.traced.reject rejection (memory, callbacks) = (answer, memory', .reject rejection :: callbacks) :=
  congrArg (Prod.map id (·, Callback.reject rejection :: callbacks)) h

end Context

namespace Parser

variable {σ N : Type}

/-- The rejections that a call shows to the context, one after the other. -/
def rejections (p : Parser σ N) (fuel : Nat) (token : Token) : List (Rejection N) :=
  (((p.traced []).process fuel token).parser.memory.2.filterMap Callback.rejection?).reverse

/-- The calls to a context that has been shown a token and then symbols that do not fit, the last one first. -/
def shown (p : Parser σ N) (token : Token) (symbols unfit : List Symbol) : List (Callback N) :=
  (unfit.map fun y => .reject (p.rejection symbols { token with symbol := y })).reverse ++
    [.filter token.symbol token.text]

/-- One more symbol that does not fit is one more rejection. -/
lemma shown_concat (p : Parser σ N) (token : Token) (symbols unfit : List Symbol) (x : Symbol) :
    p.shown token symbols (unfit ++ [x]) =
      .reject (p.rejection symbols { token with symbol := x }) :: p.shown token symbols unfit := by
  simp [shown]

/-- The rejections among these calls. -/
lemma rejections_shown (p : Parser σ N) (token : Token) (symbols unfit : List Symbol) :
    ((p.shown token symbols unfit).filterMap Callback.rejection?).reverse =
      unfit.map fun y => p.rejection symbols { token with symbol := y } := by
  simp [shown, Callback.rejection?, List.filterMap_reverse, List.filterMap_map, Function.comp_def]

/-- A token that is carried through shows no more rejections to the context. -/
lemma filterMap_rejection?_advance {c : Context σ N} {p : Parser (σ × List (Callback N)) N}
    (hcontext : p.context = c.traced) (token : Token) (fuel : Nat) (log : List Notice) :
    (advance token fuel p log).parser.memory.2.filterMap Callback.rejection? =
      p.memory.2.filterMap Callback.rejection? := by
  obtain ⟨q, hchain, hcases⟩ := advance_cases token fuel p log
  have hq : q.context = c.traced ∧
      q.memory.2.filterMap Callback.rejection? = p.memory.2.filterMap Callback.rejection? := by
    clear hcases
    induction hchain with
    | refl => exact ⟨hcontext, rfl⟩
    | tail _ hreduces ih =>
      obtain ⟨k, notice, -, hreduce⟩ := hreduces
      obtain ⟨r, children, s, m, -, -, -, rfl⟩ := reduce_eq_push hreduce
      refine ⟨ih.1, Eq.trans ?_ ih.2⟩
      rw [ih.1]
      rfl
  rcases hcases with ⟨m, -, hparser, -⟩ | ⟨-, haccept, -⟩ | ⟨hparser, -⟩
  · rw [hparser, ← hq.2, shift, hq.1]
    rfl
  · obtain ⟨node, s, -, -, hparser⟩ := accept_eq_ok haccept
    rw [hparser, ← hq.2, hq.1]
    rfl
  · rw [hparser, hq.2]

namespace Attempts

variable {p : Parser σ N} {fuel : Nat} {token : Token} {unfit symbols : List Symbol} {x : Symbol} {memory : σ}

/-- With a traced context a call tries the same symbols, and the context has been shown the token and then each of the
symbols that do not fit. -/
lemma traced (h : p.Attempts fuel token unfit x memory) (hexpected : p.expected fuel = .ok symbols) :
    (p.traced []).Attempts fuel token unfit x (memory, p.shown token symbols unfit) := by
  induction h with
  | first hfilter => exact .first (Context.filter_traced hfilter [])
  | retry _ hunfit hexpected' hanswer hnew ih =>
    obtain rfl := Except.ok.inj (hexpected.symm.trans hexpected')
    rw [shown_concat]
    exact .retry ih hunfit hexpected (Context.reject_traced hanswer _) hnew

/-- A call whose last symbol fits has shown all the symbols before it to the context. -/
lemma rejections_of_fits (h : p.Attempts fuel token unfit x memory) (hunfinished : p.isFinished = false)
    (hexpected : p.expected fuel = .ok symbols) {peak : Nat}
    (hpeak : p.table.simulate fuel p.stack.path x = .ok (some peak)) :
    p.rejections fuel token = unfit.map fun y => p.rejection symbols { token with symbol := y } := by
  obtain ⟨log, hprocess⟩ := (h.traced hexpected).process_of_fits hunfinished hpeak
  rw [rejections, hprocess]
  split
  · exact p.rejections_shown token symbols unfit
  · rw [filterMap_rejection?_advance rfl]
    exact p.rejections_shown token symbols unfit

/-- A call that gives up has shown all the symbols that it has tried to the context. -/
lemma rejections_of_gives (h : p.Attempts fuel token unfit x memory) (hunfinished : p.isFinished = false)
    (hexpected : p.expected fuel = .ok symbols) (hunfit : p.table.simulate fuel p.stack.path x = .ok none)
    (hold : ∀ y ∈ (p.context.reject (p.rejection symbols { token with symbol := x }) memory).1, y ∈ unfit ++ [x]) :
    p.rejections fuel token = (unfit ++ [x]).map fun y => p.rejection symbols { token with symbol := y } := by
  have hgives : (p.traced []).Gives fuel token unfit x (memory, p.shown token symbols unfit) _ _ :=
    .up hunfit hexpected (Context.reject_traced rfl _) hold
  obtain ⟨notices, hprocess⟩ := (h.traced hexpected).process_of_gives hunfinished hgives
  rw [rejections, hprocess, ← rejections_shown, shown_concat]
  rfl

end Attempts

end Parser

end Lalr
