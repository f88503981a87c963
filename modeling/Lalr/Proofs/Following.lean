import Lalr.Proofs.Halting
import Lalr.Proofs.Soundness

/-!
# Parsers that follow the automaton

Whatever its context does, the states on the stack of a parser that runs a constructed table are a path through
the automaton (`Parser.Follows`), and every call keeps this.  From it follows which faults a call can meet.

Trying a symbol on such a path finds the body of every rule that it reduces, so it can only run out of fuel
(`Path.Spells.eq_unsettled_of_simulateFrom`).  A token that fits is carried through along the path that was
tried, so that there is always a move, and what can go wrong is accepting at its end
(`Parser.Follows.advance_cases_of_fits`).  There the complete augmenting rule is on top of the stack, and below
it stands a state that reaches the beginning of this rule.  If the initial symbol comes after no dot, only the
first state does, and then a single node is left (`Parser.Follows.exists_accept_eq_ok`).
-/

namespace Lalr

namespace Table

variable {t : Table} {p : Path}

/-- The search for the symbols that fit fails only where trying one of them fails. -/
lemma exists_simulate_of_expected {fuel : Nat} {f : Fault} (h : t.expected fuel p = .error f) :
    ∃ x, t.simulate fuel p x = .error f := by
  rcases bind_eq_error.1 h with h | ⟨tried, -, h⟩
  · obtain ⟨x, -, hx⟩ := exists_of_mapM_eq_error h
    rcases bind_eq_error.1 hx with hx | ⟨peak, -, hx⟩
    · exact ⟨x, hx⟩
    · cases hx
  · cases h

end Table

/-! ### Accepting at the end of a path -/

namespace Automaton

/-- The initial symbol comes after no dot. -/
def AvoidsInit (g : Augmented) (a : Automaton) : Prop :=
  ∀ ⦃n : Nat⦄ ⦃c : Core⦄ ⦃rest : Body⦄, g.Reaches (KernelAt a.states n) c → ¬ g.Marks c g.init rest

variable {g : Augmented} {a : Automaton}

/-- In a live automaton the initial symbol comes after no dot. -/
lemma Live.avoidsInit (h : a.Live g) : a.AvoidsInit g :=
  fun _ _ _ hc => h.not_marks_init hc

/-- Where the initial symbol does not occur, it comes after no dot. -/
lemma Explored.avoidsInit (ha : a.Explored g) {grammar : Grammar} (haugment : grammar.augment = .ok g)
    (hinit : ¬ grammar.Occurs grammar.init) : a.AvoidsInit g :=
  fun _ _ _ hc => Grammar.not_marks_init_of_not_occurs haugment ha hinit hc

/-- Where the initial symbol comes after no dot, only the first state reaches the beginning of the augmenting
rule. -/
lemma Explored.eq_zero_of_reaches (wf : g.WellFormed) (ha : a.Explored g) (hinit : a.AvoidsInit g) {n : Nat}
    (h : g.Reaches (KernelAt a.states n) ⟨0, 0⟩) : n = 0 := by
  generalize hc : (⟨0, 0⟩ : Core) = c at h
  cases h with
  | kernel hk =>
    subst hc
    rcases ha.kernel_cases hk with ⟨hn, -⟩ | ⟨-, d, heq⟩
    · exact hn
    · exact absurd (congrArg Core.dot heq) (Nat.succ_ne_zero _).symm
  | @expand d k rest hd ho =>
    obtain rfl : 0 = k := congrArg Core.rule hc
    obtain ⟨r, hr, hm⟩ := ho
    obtain rfl := Option.some.inj (wf.augmenting.symm.trans hr)
    exact absurd hm (hinit hd)

end Automaton

namespace Path.Spells

variable {g : Augmented} {a : Automaton} {t : Table} {p : Path} {ω : List Symbol}

section

variable (wf : g.WellFormed) (ha : a.Closed g) (ht : t.Fits g a)
include wf ha ht

/-- Where the table accepts, the start symbol is on top of the path, and the state below it reaches the
beginning of the augmenting rule. -/
lemma exists_of_accept (h : p.Spells a ω) {x : Symbol} (hx : t.action? p.top x = some .accept) :
    ∃ q ω', p.pop? = some q ∧ ω = g.start :: ω' ∧ q.Spells a ω' ∧
      g.Reaches (KernelAt a.states q.top) ⟨0, 0⟩ := by
  obtain ⟨r, q, ω', hr, hdrop, hω, hq, hreaches⟩ := h.exists_drop?_of_reducible ha (ht.of_accept hx).2
  obtain rfl := Option.some.inj (wf.augmenting.symm.trans hr)
  exact ⟨q, ω', by simpa [Path.drop?, Option.bind_eq_some_iff] using hdrop, hω, hq, hreaches⟩

/-- Where the table accepts and the initial symbol comes after no dot, the path consists of the start symbol
alone. -/
lemma eq_start_of_accept (hinit : a.AvoidsInit g) (h : p.Spells a ω) {x : Symbol}
    (hx : t.action? p.top x = some .accept) : ω = [g.start] := by
  obtain ⟨q, ω', -, rfl, hq, hreaches⟩ := h.exists_of_accept wf ha ht hx
  rw [hq.eq_nil_of_top ha.explored (ha.explored.eq_zero_of_reaches wf hinit hreaches)]

/-- A reduction leads from one path through the automaton to another. -/
lemma exists_of_reducesPath (h : p.Spells a ω) {x : Symbol} {q : Path} (hq : t.ReducesPath x p q) :
    ∃ (r : Rule) (ω' : List Symbol), (r.lhs, r.rhs) ∈ g.productions ∧ ω = r.rhs.reverse ++ ω' ∧
      q.Spells a (r.lhs :: ω') := by
  obtain ⟨k, hk, hpath⟩ := hq
  obtain ⟨r, below, m, ω', hr, -, hω, hbelow, hgoto, -, hpath'⟩ := h.exists_reducePath wf ha ht hk
  obtain rfl := Except.ok.inj (hpath.symm.trans hpath')
  exact ⟨r, ω', Augmented.mem_productions_of_rule hr, hω, .push hbelow hgoto⟩

/-- Trying a symbol on a path through the automaton fails only for want of fuel. -/
lemma eq_unsettled_of_simulateFrom (h : p.Spells a ω) {x : Symbol} {fuel peak : Nat} {f : Fault}
    (hf : t.simulateFrom x fuel p peak = .error f) : f = .unsettled := by
  induction fuel generalizing p ω peak with
  | zero => exact (Except.error.inj hf).symm
  | succ fuel ih =>
    by_cases hstop : ∃ k, t.action? p.top x = some (.reduce k)
    · obtain ⟨k, hk⟩ := hstop
      obtain ⟨r, q, m, ω', -, -, -, hq, hgoto, -, hpath⟩ := h.exists_reducePath wf ha ht hk
      rw [Table.simulateFrom_of_reduce hk hpath] at hf
      exact ih (.push hq hgoto) hf
    · rw [Table.simulateFrom] at hf
      split at hf
      · cases hf
      · cases hf
      · rename_i k hk
        exact absurd ⟨k, hk⟩ hstop
      · cases hf

end

end Path.Spells

/-! ### The invariant -/

namespace Parser

variable {σ N : Type} {g : Augmented} {a : Automaton}

/-- The parser runs the table of the automaton, and its states are a path through the automaton. -/
structure Follows (g : Augmented) (a : Automaton) (p : Parser σ N) : Prop where
  fits : p.table.Fits g a
  spells : ∃ ω, p.stack.path.Spells a ω

/-- A parser that matches one that follows the automaton and has the same stack follows it too. -/
lemma Follows.of_matches {p q : Parser σ N} (h : p.Follows g a) (hmatches : p.Matches q)
    (hstack : q.stack = p.stack) : q.Follows g a :=
  ⟨hmatches.table ▸ h.fits, hstack ▸ h.spells⟩

/-- A parser that is created for a fitting table follows the automaton. -/
lemma follows_of_create {table : Table} {context : Context σ N} {memory : σ} {p : Parser σ N}
    (hfits : table.Fits g a) (h : create table context memory = .ok p) (limit : Nat) :
    ({ p with limit } : Parser σ N).Follows g a := by
  obtain ⟨-, rfl⟩ := create_eq_ok h
  exact ⟨hfits, [], hfits.spells_root⟩

section

variable (wf : g.WellFormed) (ha : a.Closed g)
include wf ha

/-- A reduction that the table calls for can be made on the states and on the stack alike. -/
lemma Follows.exists_reduce {p : Parser σ N} (h : p.Follows g a) {k : Nat} {x : Symbol}
    (hk : p.table.action? p.stack.top x = some (.reduce k)) :
    ∃ q notice, p.reduce k = .ok (q, notice) ∧ q.Follows g a ∧ p.Matches q ∧
      p.table.reducePath k p.stack.path = .ok q.stack.path := by
  obtain ⟨ω, hω⟩ := h.spells
  obtain ⟨r, s, m, ω', q, notice, -, -, -, -, hspells, hgoto, hpath, hreduce, hmatches, -, hstack⟩ :=
    exists_reduce_eq_ok wf ha h.fits hω hk
  have hq : q.stack.path = s.path.push m := congrArg Stack.path hstack
  have hfollows : q.stack.path.Spells a (r.lhs :: ω') := by
    rw [hq]
    exact .push hspells hgoto
  exact ⟨q, notice, hreduce, ⟨hmatches.table ▸ h.fits, _, hfollows⟩, hmatches, hq ▸ hpath⟩

/-- A reduction keeps the parser on the automaton. -/
lemma Follows.of_reduces {p q : Parser σ N} (h : p.Follows g a) {x : Symbol} (hq : Reduces x p q) :
    q.Follows g a := by
  obtain ⟨ω, hω⟩ := h.spells
  obtain ⟨r, ω', -, -, hspells⟩ := hω.exists_of_reducesPath wf ha h.fits hq.reducesPath
  exact ⟨hq.matches.table ▸ h.fits, _, hspells⟩

/-- Reductions and shifts keep the parser on the automaton. -/
lemma invariant_follows : Invariant fun (p : Parser σ N) _ => p.Follows g a where
  of_matches h hmatches hstack := h.of_matches hmatches hstack
  reduce h hq := h.of_reduces wf ha hq
  shift h haction := by
    obtain ⟨ω, hω⟩ := h.spells
    exact ⟨h.fits, _, .push hω (h.fits.of_shift haction).2⟩

/-- Any sequence of calls keeps the parser on the automaton. -/
lemma Follows.after {p : Parser σ N} (h : p.Follows g a) (calls : List (Nat × Token)) :
    (p.after calls).Follows g a := by
  refine (invariant_follows wf ha).after (fun {p q} hp hq => ?_) h calls
  obtain ⟨ω, hω⟩ := hp.spells
  obtain ⟨node, s, hpop, -, rfl⟩ := accept_eq_ok hq
  refine ⟨hp.fits, ω.tail, hω.of_pop? ?_⟩
  rw [← Stack.map_path_pop?, hpop]
  rfl

/-! ### Faults of calls -/

/-- Where the table accepts there is a node to be taken off the stack. -/
lemma Follows.exists_pop?_of_accept {p : Parser σ N} (h : p.Follows g a) {x : Symbol}
    (hx : p.table.action? p.stack.top x = some .accept) : ∃ node s, p.stack.pop? = some (node, s) := by
  obtain ⟨ω, hω⟩ := h.spells
  obtain ⟨q, -, hpop, -⟩ := hω.exists_of_accept wf ha h.fits hx
  rw [← Stack.map_path_pop?] at hpop
  obtain ⟨⟨node, s⟩, hpop, -⟩ := Option.map_eq_some_iff.1 hpop
  exact ⟨node, s, hpop⟩

/-- Accepting can fail only because it leaves frames on the stack. -/
lemma Follows.eq_acceptLeaves_of_accept {p : Parser σ N} (h : p.Follows g a) {x : Symbol}
    (hx : p.table.action? p.stack.top x = some .accept) {f : Fault} (hf : p.accept = .error f) :
    ∃ state frames, f = .acceptLeaves state frames := by
  obtain ⟨node, s, hpop⟩ := h.exists_pop?_of_accept wf ha hx
  unfold accept at hf
  simp only [hpop] at hf
  split at hf
  · cases hf
  · exact ⟨_, _, (Except.error.inj hf).symm⟩

/-- Where the table accepts and the initial symbol comes after no dot, there is one node on the stack. -/
lemma Follows.exists_nodes_eq_of_accept (hinit : a.AvoidsInit g) {p : Parser σ N} (h : p.Follows g a)
    {x : Symbol} (hx : p.table.action? p.stack.top x = some .accept) : ∃ node, p.stack.nodes = [node] := by
  obtain ⟨ω, hω⟩ := h.spells
  have hdepth : p.stack.nodes.length = ω.length := p.stack.length_nodes_eq_depth.trans hω.depth_eq
  rw [hω.eq_start_of_accept wf ha h.fits hinit hx] at hdepth
  exact List.length_eq_one_iff.1 hdepth

/-- Where the table accepts and the initial symbol comes after no dot, accepting succeeds. -/
lemma Follows.exists_accept_eq_ok (hinit : a.AvoidsInit g) {p : Parser σ N} (h : p.Follows g a) {x : Symbol}
    (hx : p.table.action? p.stack.top x = some .accept) : ∃ q, p.accept = .ok q := by
  obtain ⟨node, s, hpop⟩ := h.exists_pop?_of_accept wf ha hx
  obtain ⟨node', hnodes⟩ := h.exists_nodes_eq_of_accept wf ha hinit hx
  have hrest : s.nodes = [] := (List.cons.inj ((Stack.nodes_of_pop? hpop).symm.trans hnodes)).2
  exact ⟨_, accept_of_pop? hpop (List.isEmpty_iff.2 hrest)⟩

/-- A token that fits makes progress, unless accepting fails at the end of its reductions. -/
lemma Follows.advance_cases_of_fits {token : Token} {fuel peak peak' : Nat} {p : Parser σ N}
    (h : p.Follows g a)
    (hfits : p.table.simulateFrom token.symbol fuel p.stack.path peak = .ok (some peak'))
    (log : List Notice) :
    (∃ progress, (Parser.advance token fuel p log).outcome = .progress progress) ∨
      ∃ (q : Parser σ N) (f : Fault), q.Follows g a ∧
        q.table.action? q.stack.top token.symbol = some .accept ∧
        q.accept = .error f ∧ (Parser.advance token fuel p log).outcome = .fault f := by
  induction fuel generalizing p peak log with
  | zero => cases hfits
  | succ fuel ih =>
    rcases Table.simulateFrom_succ_eq_some hfits with
      ⟨m, haction⟩ | haction | ⟨k, path, haction, hpath, hrest⟩
    · rw [Parser.advance]
      simp [show p.table.action? p.stack.top token.symbol = some (.shift m) from haction]
    · have haction' : p.table.action? p.stack.top token.symbol = some .accept := haction
      rw [Parser.advance]
      simp only [haction']
      cases haccept : p.accept with
      | ok q => exact Or.inl ⟨_, rfl⟩
      | error f => exact Or.inr ⟨p, f, h, haction', haccept, rfl⟩
    · obtain ⟨q, notice, hreduce, hq, hmatches, hpath'⟩ := h.exists_reduce wf ha haction
      obtain rfl := Except.ok.inj (hpath.symm.trans hpath')
      rw [advance_of_reduce haction hreduce]
      rw [← hmatches.table] at hrest
      exact ih hq hrest _

/-- Where the initial symbol comes after no dot, a token that fits makes progress. -/
lemma Follows.exists_progress_of_fits (hinit : a.AvoidsInit g) {token : Token} {fuel peak peak' : Nat}
    {p : Parser σ N} (h : p.Follows g a)
    (hfits : p.table.simulateFrom token.symbol fuel p.stack.path peak = .ok (some peak'))
    (log : List Notice) : ∃ progress, (Parser.advance token fuel p log).outcome = .progress progress := by
  rcases h.advance_cases_of_fits wf ha hfits log with hprogress | ⟨q, f, hq, haction, haccept, -⟩
  · exact hprogress
  · obtain ⟨q', hq'⟩ := hq.exists_accept_eq_ok wf ha hinit haction
    cases hq'.symm.trans haccept

omit wf ha in
/-- No more symbols can be tried than there are. -/
lemma length_le_symbolCount {tried : List Symbol} (h : tried.Nodup) : tried.length ≤ symbolCount := by
  have hcard := (h.map Symbol.toFin_injective).length_le_card
  rwa [List.length_map, Fintype.card_fin] at hcard

/-- A token is tried without a fault, unless trying a symbol on the states fails, or accepting does. -/
lemma Follows.attempt_fault_cases {fuel attempts : Nat} {tried : List Symbol} {token : Token}
    {p : Parser σ N} (h : p.Follows g a) (htried : tried.Nodup)
    (hcount : symbolCount < tried.length + attempts) {log : List Notice} {f : Fault}
    (hf : (attempt fuel attempts tried token p log).outcome = .fault f) :
    (∃ x, p.table.simulate fuel p.stack.path x = .error f) ∨
      ∃ (q : Parser σ N) (x : Symbol), q.Follows g a ∧ q.table.action? q.stack.top x = some .accept ∧
        q.accept = .error f := by
  induction attempts generalizing tried token p log with
  | zero => exact absurd (length_le_symbolCount htried) (by simpa using hcount)
  | succ attempts ih =>
    rw [attempt] at hf
    split at hf
    · rename_i f' hsimulate
      obtain rfl := Outcome.fault.inj hf
      exact Or.inl ⟨_, hsimulate⟩
    · rename_i peak hsimulate
      split at hf
      · cases hf
      · rcases h.advance_cases_of_fits wf ha hsimulate log with
          ⟨progress, houtcome⟩ | ⟨q, f', hq, haction, haccept, houtcome⟩
        · cases houtcome.symm.trans hf
        · obtain rfl := Outcome.fault.inj (houtcome.symm.trans hf)
          exact Or.inr ⟨q, _, hq, haction, haccept⟩
    · split at hf
      · rename_i f' hexpected
        obtain rfl := Outcome.fault.inj hf
        exact Or.inl (Table.exists_simulate_of_expected hexpected)
      · split at hf
        rename_i answer memory _
        split at hf
        · rename_i symbol hfilter
          obtain ⟨-, hnew⟩ := Option.filter_eq_some_iff.1 hfilter
          refine ih (p := p.retrying memory) ⟨h.fits, h.spells⟩ ?_ ?_ hf
          · rw [List.nodup_append_comm]
            exact List.nodup_cons.2 ⟨by simpa using hnew, htried⟩
          · simp only [List.length_append, List.length_singleton]
            omega
        · cases hf

/-- A call does not fault, unless trying a symbol on the states fails, or accepting does. -/
lemma Follows.process_fault_cases {fuel : Nat} {token : Token} {p : Parser σ N} (h : p.Follows g a)
    {f : Fault} (hf : (p.process fuel token).outcome = .fault f) :
    (∃ x, p.table.simulate fuel p.stack.path x = .error f) ∨
      ∃ (q : Parser σ N) (x : Symbol), q.Follows g a ∧ q.table.action? q.stack.top x = some .accept ∧
        q.accept = .error f := by
  unfold Parser.process at hf
  split at hf
  · cases hf
  · cases hfilter : p.context.filter token.symbol token.text p.memory with
    | mk answer memory =>
      rw [hfilter] at hf
      cases answer with
      | none => cases hf
      | some symbol =>
        have hstart : (p.starting memory).Follows g a := ⟨h.fits, h.spells⟩
        exact hstart.attempt_fault_cases wf ha (List.nodup_singleton symbol) (by simp) hf

/-- Where the initial symbol comes after no dot, a call faults only because trying a symbol does. -/
lemma Follows.exists_simulate_of_process (hinit : a.AvoidsInit g) {fuel : Nat} {token : Token}
    {p : Parser σ N} (h : p.Follows g a) {f : Fault} (hf : (p.process fuel token).outcome = .fault f) :
    ∃ x, p.table.simulate fuel p.stack.path x = .error f := by
  rcases h.process_fault_cases wf ha hf with hsimulate | ⟨q, x, hq, haction, haccept⟩
  · exact hsimulate
  · obtain ⟨q', hq'⟩ := hq.exists_accept_eq_ok wf ha hinit haction
    cases hq'.symm.trans haccept

/-- Where trying any symbol returns, a call for the table of a live automaton does not fault. -/
lemma Follows.process_ne_fault (hlive : a.Live g) {fuel : Nat} {p : Parser σ N} (h : p.Follows g a)
    (hreturns : ∀ x, ∃ result, p.table.simulate fuel p.stack.path x = .ok result) (token : Token)
    (f : Fault) : (p.process fuel token).outcome ≠ .fault f := by
  intro hf
  obtain ⟨x, hx⟩ := h.exists_simulate_of_process wf ha hlive.avoidsInit hf
  obtain ⟨result, hresult⟩ := hreturns x
  cases hresult.symm.trans hx

end

end Parser

end Lalr
