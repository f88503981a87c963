import Lalr.Proofs.Ambiguity
import Lalr.Proofs.Trial
import Lalr.Proofs.Viable

/-!
# The expected symbols

An action for a symbol does not yet mean that the symbol can come next: under a merged lookahead a table may
reduce before it finds that nothing can be shifted.  Without conflicts, and where every nonterminal derives
terminals, the search for the symbols that fit is exact all the same (`Grammar.expected_eq_continuations`).

* A symbol that is shifted after reductions continues what was read to a prefix of a sentence, since reductions
  keep what the path yields and the path is a viable prefix.  If the table accepts, the path consists of the start
  symbol, which then derives what was read (`Grammar.continues_of_takes`).
* If what was read can be continued by a symbol, the run of the table on the whole sentence shifts first what was
  read and then, after reductions, that symbol.  What the table does is determined, so this run goes through the
  path of the parser (`Grammar.takes_of_continues`).
* Every trial comes to an end, since without conflicts no symbol stands for itself.

The end of input is shifted nowhere, because it is in no body; hence it is expected only where the table accepts.
-/

namespace Lalr

/-! ### What calls do to the path -/

/-- What is shifted from a path is added to what the path yields. -/
lemma Table.Shifts.yields {g : Augmented} {a : Automaton} {t : Table} (wf : g.WellFormed) (ha : a.Closed g)
    (ht : t.Fits g a) {p q : Path} {w xs : Body} (hp : p.Yields g a w) (h : t.Shifts p xs q) :
    q.Yields g a (w ++ xs) ∧ ∀ x ∈ xs, g.kinds.IsTerminal x := by
  induction h generalizing w with
  | nil => exact ⟨by simpa using hp, nofun⟩
  | cons hchain hshift _ ih =>
    obtain ⟨hterminal, hgoto⟩ := ht.of_shift hshift
    obtain ⟨hyields, hterminals⟩ := ih ((hp.of_chain wf ha ht hchain).push hgoto)
    exact ⟨by simpa using hyields, List.forall_mem_cons.2 ⟨hterminal, hterminals⟩⟩

namespace Parser

variable {σ N : Type} {g : Augmented} {a : Automaton}

/-- The symbol that a token settles on fits. -/
lemma Settles.exists_simulate {fuel : Nat} {p : Parser σ N} {tried : List Symbol} {token : Token} {x : Symbol}
    (h : Settles fuel p tried token x) : ∃ peak, p.table.simulate fuel p.stack.path x = .ok (some peak) := by
  induction h with
  | fits h => exact ⟨_, h⟩
  | retry _ _ _ _ _ ih => exact ih

/-- The symbol that a call parses its token as fits. -/
lemma ParsedAs.exists_simulate {fuel : Nat} {p : Parser σ N} {token : Token} {x : Symbol}
    (h : p.ParsedAs fuel token x) : ∃ peak, p.table.simulate fuel p.stack.path x = .ok (some peak) := by
  obtain ⟨symbol, memory, -, hsettles⟩ := h
  exact hsettles.exists_simulate

/-- The parser runs the table of the automaton and stands where the table comes to by shifting the tokens. -/
structure Shifted (g : Augmented) (a : Automaton) (p : Parser σ N) (tokens : List Token) : Prop where
  fits : p.table.Fits g a
  shifts : p.table.Shifts (Path.root 0) (tokens.map Token.symbol) p.stack.path

/-- A parser that is created for a fitting table has shifted nothing. -/
lemma shifted_of_create {table : Table} {context : Context σ N} {memory : σ} {p : Parser σ N}
    (hfits : table.Fits g a) (h : create table context memory = .ok p) (limit : Nat) :
    ({ p with limit } : Parser σ N).Shifted g a [] := by
  obtain ⟨-, rfl⟩ := create_eq_ok h
  have hstart : table.start = 0 := hfits.start
  refine ⟨hfits, ?_⟩
  change table.Shifts (Path.root 0) [] (Path.root table.start)
  rw [hstart]
  exact .nil

/-- A parser that matches one that has shifted tokens and has the same stack has shifted them too. -/
lemma Shifted.of_matches {p q : Parser σ N} {tokens : List Token} (h : p.Shifted g a tokens)
    (hmatches : p.Matches q) (hstack : q.stack = p.stack) : q.Shifted g a tokens := by
  refine ⟨hmatches.table ▸ h.fits, ?_⟩
  rw [hmatches.table, hstack]
  exact h.shifts

/-- What a parser has shifted is what its path yields. -/
lemma Shifted.yields (wf : g.WellFormed) (ha : a.Closed g) {p : Parser σ N} {tokens : List Token}
    (h : p.Shifted g a tokens) :
    p.stack.path.Yields g a (tokens.map Token.symbol) ∧
      ∀ x ∈ tokens.map Token.symbol, g.kinds.IsTerminal x := by
  simpa using h.shifts.yields wf ha h.fits Path.yields_root

/-- A parser that has shifted tokens follows the automaton. -/
lemma Shifted.follows (wf : g.WellFormed) (ha : a.Closed g) {p : Parser σ N} {tokens : List Token}
    (h : p.Shifted g a tokens) : p.Follows g a := by
  obtain ⟨⟨ω, hω, -⟩, -⟩ := h.yields wf ha
  exact ⟨h.fits, ω, hω⟩

/-- Reductions under a token and the shift after them add the token. -/
lemma Shifted.shift {p q : Parser σ N} {tokens : List Token} (h : p.Shifted g a tokens) {token : Token} {m : Nat}
    (hchain : Relation.ReflTransGen (Reduces token.symbol) p q)
    (hshift : q.table.action? q.stack.top token.symbol = some (.shift m)) :
    (q.shift token m).Shifted g a (tokens ++ [token]) := by
  obtain ⟨hmatches, hpath⟩ := reducesPath_of_reduces hchain
  rw [hmatches.table] at hshift
  have hshifts := h.shifts.concat hpath hshift
  refine ⟨hmatches.table ▸ h.fits, ?_⟩
  rw [List.map_append]
  change q.table.Shifts (Path.root 0) _ (q.stack.path.push m)
  rw [hmatches.table]
  exact hshifts

/-- A call shifts its token, ends the parse, or leaves the parser where it stands.  A call that begins to reduce
goes on to the shift, because its token has been tried. -/
lemma Shifted.process (wf : g.WellFormed) (ha : a.Closed g) (hinit : a.AvoidsInit g) {p : Parser σ N}
    {tokens : List Token} (h : p.Shifted g a tokens) (fuel : Nat) (token : Token) :
    (∃ x, p.ParsedAs fuel token x ∧ (p.process fuel token).outcome = .progress .shifted ∧
        (p.process fuel token).parser.Shifted g a (tokens ++ [{ token with symbol := x }])) ∨
      (p.process fuel token).outcome ≠ .progress .shifted ∧
        ((p.process fuel token).parser.isFinished = true ∨ (p.process fuel token).parser.Shifted g a tokens) := by
  rcases p.process_cases fuel token with
    ⟨hmatches, hstack, hother, -⟩ | ⟨q, x, log, hmatches, hstack, -, hx, heq⟩
  · exact Or.inr ⟨hother, Or.inr (h.of_matches hmatches hstack)⟩
  · have hq := h.of_matches hmatches hstack
    obtain ⟨peak, hpeak⟩ := hx.exists_simulate
    rw [← hmatches.table, ← hstack] at hpeak
    have hfits : q.table.simulateFrom ({ token with symbol := x } : Token).symbol fuel q.stack.path
        q.stack.path.depth = .ok (some peak) := hpeak
    obtain ⟨progress, hprogress⟩ := (hq.follows wf ha).exists_progress_of_fits wf ha hinit hfits log
    obtain ⟨q', hchain, hcases⟩ := advance_cases { token with symbol := x } fuel q log
    rw [heq]
    rcases hcases with ⟨m, haction, hparser, houtcome⟩ | ⟨-, haccept, houtcome⟩ | ⟨-, houtcome⟩
    · exact Or.inl ⟨x, hx, houtcome, hparser ▸ hq.shift hchain haction⟩
    · obtain ⟨node, s, -, -, hfinished⟩ := accept_eq_ok haccept
      refine Or.inr ⟨by simp [houtcome], Or.inl ?_⟩
      rw [hfinished]
    · exact absurd hprogress (houtcome progress)

/-- A token that does not fit is refused, together with the symbols that would have fitted, unless the context
answers with another symbol. -/
lemma process_eq_unexpected {p : Parser σ N} (hunfinished : p.isFinished = false) {fuel : Nat} {token : Token}
    {y : Symbol} {memory : σ} {symbols : List Symbol}
    (hfilter : p.context.filter token.symbol token.text p.memory = (some y, memory))
    (hsimulate : p.table.simulate fuel p.stack.path y = .ok none) (hexpected : p.expected fuel = .ok symbols)
    (hreject : ∀ z, (p.context.reject (p.rejection symbols { token with symbol := y }) memory).1 = some z →
      z = y) : (p.process fuel token).outcome = .failed (.unexpected symbols y) := by
  have hsimulate' : (p.starting memory).table.simulate fuel (p.starting memory).stack.path
      ({ token with symbol := y } : Token).symbol = .ok none := hsimulate
  have hexpected' : (p.starting memory).expected fuel = .ok symbols := hexpected
  rw [process_eq_attempt hunfinished hfilter, attempt]
  simp only [hsimulate', hexpected']
  cases hanswer : p.context.reject (p.rejection symbols { token with symbol := y }) memory with
  | mk answer memory' =>
    have hnone : (answer.filter fun z => !([y] : List Symbol).contains z) = none := by
      rw [hanswer] at hreject
      refine Option.filter_eq_none_iff.2 fun z hz => ?_
      simp [hreject z hz]
    have hanswer' : (p.starting memory).context.reject
        ((p.starting memory).rejection symbols { token with symbol := y }) (p.starting memory).memory =
          (answer, memory') := hanswer
    unfold rejection at hanswer'
    simp only [hanswer', hnone]

end Parser

/-! ### Sentences -/

namespace Grammar

variable {grammar : Grammar} {g : Augmented} {a : Automaton} {t : Table} {p : Path} {w : Body} {x : Symbol}

/-- Where the end of input is in no body, no transition goes along it. -/
lemma goto_ne_eof (haugment : grammar.augment = .ok g) (ha : a.Explored g)
    (heof : ∀ p ∈ grammar.productions, Symbol.eof ∉ p.2) {n m : Nat} (hgoto : a.goto? n x = some m) :
    x ≠ Symbol.eof := by
  rintro rfl
  have wf := wellFormed_of_augment haugment
  obtain ⟨-, -, ⟨d, rest, -, r, hr, hdrop⟩, -⟩ := ha.target hgoto
  have hmem : Symbol.eof ∈ r.rhs := List.mem_of_mem_drop (hdrop ▸ List.mem_cons_self)
  by_cases hzero : d.rule = 0
  · rw [hzero] at hr
    obtain rfl := Option.some.inj (wf.augmenting.symm.trans hr)
    obtain ⟨-, -, hstart, hkinds, -⟩ := augment_eq_ok haugment
    have hterminal := wf.eof
    rw [List.mem_singleton.1 hmem, hstart, hkinds] at hterminal
    exact not_isTerminal_start haugment hterminal
  · exact heof _ (mem_productions_of_ne_zero haugment hzero hr) hmem

/-- A sentence is shifted symbol by symbol, and then the table accepts. -/
lemma exists_shifts_of_isSentence (haugment : grammar.augment = .ok g) (ha : a.Closed g) (ht : t.Fits g a)
    (hfree : a.ConflictFree g) (hw : grammar.IsSentence grammar.productions w) :
    ∃ p q, t.Shifts (Path.root 0) w p ∧ Relation.ReflTransGen (t.ReducesPath Symbol.eof) p q ∧
      t.action? q.top Symbol.eof = some .accept := by
  obtain ⟨hdefects, -⟩ := augment_eq_ok haugment
  obtain ⟨hderives, hterminal⟩ := hw
  set tokens : List Token := w.map fun x => ⟨x, "", 0⟩
  have hsymbols : tokens.map Token.symbol = w := by
    rw [List.map_map]
    exact List.map_id w
  rw [← hsymbols] at hderives
  obtain ⟨ts, hts, hleaves, htrees⟩ := Tree.exists_forest hdefects (by simpa [tokens] using hterminal) hderives
  obtain ⟨tree, rfl, hstart⟩ := List.map_eq_singleton_iff.1 hts
  obtain ⟨s, hrun, -, haccept⟩ :=
    Automaton.exists_run_accept haugment ha ht hfree (htrees tree List.mem_cons_self) hstart 0
  have htokens : tree.leaves = tokens := by simpa using hleaves
  rw [htokens] at hrun
  obtain ⟨p, hshifts, hchain⟩ := (Table.feeds_of_moves hrun rfl rfl).exists_shifts
  rw [hsymbols] at hshifts
  exact ⟨p, s.path, hshifts, hchain, haccept⟩

/-- The symbol continues the string to a prefix of a sentence, or is the end of input behind a sentence. -/
def Continues (grammar : Grammar) (w : Body) (x : Symbol) : Prop :=
  x ≠ Symbol.eof ∧ (∃ rest, grammar.IsSentence grammar.productions (w ++ x :: rest)) ∨
    x = Symbol.eof ∧ grammar.IsSentence grammar.productions w

/-- What continues the string is taken after it. -/
lemma takes_of_continues (haugment : grammar.augment = .ok g) (ha : a.Closed g) (ht : t.Fits g a)
    (hfree : a.ConflictFree g) (hp : t.Shifts (Path.root 0) w p) (hx : grammar.Continues w x) :
    t.Takes x p := by
  rcases hx with ⟨-, rest, hsentence⟩ | ⟨rfl, hsentence⟩
  · obtain ⟨r, -, hshifts, -⟩ := exists_shifts_of_isSentence haugment ha ht hfree hsentence
    obtain ⟨q, hq, hrest⟩ := hshifts.exists_of_append
    obtain rfl := hp.unique hq
    cases hrest with
    | cons hchain hshift _ => exact ⟨_, hchain, Or.inl ⟨_, hshift⟩⟩
  · obtain ⟨q, r, hshifts, hchain, haccept⟩ := exists_shifts_of_isSentence haugment ha ht hfree hsentence
    obtain rfl := hp.unique hshifts
    exact ⟨r, hchain, Or.inr haccept⟩

section

variable (haugment : grammar.augment = .ok g)
  (hgenerates : ∀ A, grammar.classification.IsNonterminal A →
    Generates grammar.augmentedProductions grammar.classification [A])
  (hinit : ∀ p ∈ grammar.productions, grammar.init ∉ p.2)
include haugment hgenerates hinit

/-- Terminals that are derived from the start symbol by the rules are a sentence of the given productions. -/
lemma isSentence_of_derives_rules (h : Derives g.productions [g.start] w)
    (hw : ∀ x ∈ w, g.kinds.IsTerminal x) : grammar.IsSentence grammar.productions w := by
  obtain ⟨hderives, hterminal⟩ := isSentence_of_derives haugment h hw
  have hstart : grammar.init ∉ [grammar.start] := by
    simpa using (start_ne_init haugment hgenerates).symm
  exact ⟨(derives_of_augmented hinit hstart hderives).1, hterminal⟩

/-- What is taken after a string that was shifted continues it. -/
lemma continues_of_takes (ha : a.Closed g) (ht : t.Fits g a)
    (heof : ∀ p ∈ grammar.productions, Symbol.eof ∉ p.2) (hp : t.Shifts (Path.root 0) w p) (hx : t.Takes x p) :
    grammar.Continues w x := by
  have wf := wellFormed_of_augment haugment
  obtain ⟨hyields, hterminal⟩ := hp.yields wf ha ht Path.yields_root
  obtain ⟨q, hchain, hstops⟩ := hx
  have hq : q.Yields g a w := hyields.of_chain wf ha ht hchain
  rcases hstops with ⟨m, hshift⟩ | haccept
  · obtain ⟨hx, hgoto⟩ := ht.of_shift hshift
    have hall : ∀ y ∈ w ++ [x], g.kinds.IsTerminal y :=
      List.forall_mem_append.2 ⟨hterminal, by simpa using hx⟩
    obtain ⟨rest, hderives, hrest⟩ :=
      (hq.push hgoto).exists_derives wf (productive_of_generates haugment hgenerates) ha.explored hall
    have hsentence := isSentence_of_derives_rules haugment hgenerates hinit hderives hrest
    exact Or.inl ⟨goto_ne_eof haugment ha.explored heof hgoto, rest, by simpa using hsentence⟩
  · obtain ⟨ω, hω, hderives⟩ := hq
    have havoids : a.AvoidsInit g :=
      ha.explored.avoidsInit haugment (not_occurs_init_of_generates haugment hgenerates hinit)
    rw [hω.eq_start_of_accept wf ha ht havoids haccept] at hderives
    exact Or.inr ⟨(ht.of_accept haccept).1,
      isSentence_of_derives_rules haugment hgenerates hinit hderives hterminal⟩

end

/-- The expected symbols are exact.  Without conflicts, where every nonterminal derives terminals and neither the
initial symbol nor the end of input is in a body, a parser is created for the constructed table.  After any
calls that leave the parse unfinished, the search for the symbols that fit returns with enough fuel.  It lists,
in strictly ascending order, the terminals that continue what was read to a prefix of a sentence, and the end of
input if what was read is a sentence.  A token that the context names by any other symbol is refused with this
list and that symbol, unless the context answers with a different symbol. -/
theorem expected_eq_continuations (haugment : grammar.augment = .ok g)
    (hgenerates : ∀ A, grammar.classification.IsNonterminal A →
      Generates grammar.augmentedProductions grammar.classification [A])
    (hinit : ∀ p ∈ grammar.productions, grammar.init ∉ p.2)
    (heof : ∀ p ∈ grammar.productions, Symbol.eof ∉ p.2) (verbose : Bool) :
    ∃ c, grammar.construct verbose = .ok c ∧ (c.automaton.ConflictFree g →
      ∀ {σ N : Type} (context : Context σ N) (memory : σ),
        ∃ p, Parser.create c.table context memory = .ok p ∧
          ∀ (limit : Nat) (calls : List (Nat × Token)) (q : Parser σ N),
            ({ p with limit } : Parser σ N).after calls = q → q.isFinished = false →
            ∃ (tokens : List Token) (symbols : List Symbol) (bound : Nat),
              (∀ read, ({ p with limit } : Parser σ N).Reads calls read ↔ read = tokens) ∧
              symbols.Pairwise (fun x y => x.id < y.id) ∧
              (∀ x, x ∈ symbols ↔ grammar.Continues (tokens.map Token.symbol) x) ∧
              ∀ fuel ≥ bound, q.expected fuel = .ok symbols ∧
                ∀ (token : Token) (y : Symbol) (memory : σ),
                  context.filter token.symbol token.text q.memory = (some y, memory) → y ∉ symbols →
                  (∀ z, (context.reject (q.rejection symbols { token with symbol := y }) memory).1 = some z →
                    z = y) →
                  (q.process fuel token).outcome = .failed (.unexpected symbols y)) := by
  have wf := wellFormed_of_augment haugment
  obtain ⟨c, hc, -, hclosed, hfits⟩ := exists_construct_eq_ok haugment verbose
  refine ⟨c, hc, fun hfree {σ N} context memory => ?_⟩
  have hcreate : Parser.create c.table context memory =
      .ok { table := c.table, context, memory, stack := Stack.root c.table.start } := by
    simp [Parser.create, hfits.checkDeterministic_eq_ok hfree, bind, Except.bind]
  refine ⟨_, hcreate, fun limit calls q hq hunfinished => ?_⟩
  have hcontext : q.context = context := hq ▸ Parser.context_after _ calls
  have havoids : c.automaton.AvoidsInit g :=
    hclosed.explored.avoidsInit haugment (not_occurs_init_of_generates haugment hgenerates hinit)
  obtain ⟨tokens, hread, hfinished | hafter⟩ :=
    Parser.exists_reads_of_process (fun h fuel token => h.process wf hclosed havoids fuel token)
      (Parser.shifted_of_create hfits hcreate limit) calls
  · rw [hq] at hfinished
    cases hunfinished.symm.trans hfinished
  rw [hq, List.nil_append] at hafter
  obtain ⟨ω, hω⟩ := (hafter.follows wf hclosed).spells
  have hhalts (x : Symbol) := halts_of_conflictFree haugment
    (fun A hA hoccurs => generates_of_augmented haugment hgenerates hinit hA hoccurs)
    hclosed hafter.fits hfree x hω
  obtain ⟨symbols, bound, hsorted, hmem, hbound⟩ := Table.exists_expected_eq_takes hhalts
  refine ⟨tokens, symbols, bound, fun read => ⟨fun h => h.unique hread, fun h => h ▸ hread⟩, hsorted,
    fun x => ?_, fun fuel hfuel => ?_⟩
  · rw [hmem]
    exact ⟨continues_of_takes haugment hgenerates hinit hclosed hafter.fits heof hafter.shifts,
      takes_of_continues haugment hclosed hafter.fits hfree hafter.shifts⟩
  · obtain ⟨hexpected, hother⟩ := hbound fuel hfuel
    refine ⟨hexpected, fun token y memory hfilter hy hreject => ?_⟩
    rw [← hcontext] at hfilter hreject
    exact Parser.process_eq_unexpected hunfinished hfilter (hother y hy) hexpected hreject

/-- After two opening brackets and a closing one, only a closing bracket continues nested pairs.  The parser
expects it alone, and refuses another opening bracket. -/
theorem expected_eq_continuations_nested :
    ∃ c p bound, nested.construct false = .ok c ∧ Parser.create c.table Tree.context none = .ok p ∧
      (∀ x, nested.Continues [⟨10⟩, ⟨10⟩, ⟨11⟩] x ↔ x = ⟨11⟩) ∧ ∀ fuel ≥ bound,
        (p.after [(9, ⟨⟨10⟩, "(", 0⟩), (9, ⟨⟨10⟩, "(", 1⟩), (9, ⟨⟨11⟩, ")", 2⟩)]).expected fuel = .ok [⟨11⟩] ∧
        ((p.after [(9, ⟨⟨10⟩, "(", 0⟩), (9, ⟨⟨10⟩, "(", 1⟩), (9, ⟨⟨11⟩, ")", 2⟩)]).process fuel
          ⟨⟨10⟩, "(", 3⟩).outcome = .failed (.unexpected [⟨11⟩] ⟨10⟩) := by
  obtain ⟨g, hg⟩ := exists_augment_nested
  obtain ⟨c, p, hc, hp, hunfinished, hreads⟩ := exists_reads_nested
  obtain ⟨c', hc', hall⟩ := expected_eq_continuations hg (fun A hA => generates_nested hA) (by decide +kernel)
    (by decide +kernel) false
  obtain rfl := Except.ok.inj (hc.symm.trans hc')
  obtain ⟨p', hp', hcalls⟩ := hall (conflictFree_nested hg hc) Tree.context none
  obtain rfl := Except.ok.inj (hp.symm.trans hp')
  obtain ⟨tokens, symbols, bound, hunique, hsorted, hmem, hbound⟩ := hcalls p.limit _ _ rfl hunfinished
  obtain rfl := (hunique _).1 hreads
  -- the list does not depend on the fuel, so that it can be computed with some
  have hrun : (do
      let c ← (nested.construct false).toOption
      let p ← (Parser.create c.table Tree.context none).toOption
      ((p.after [(9, ⟨⟨10⟩, "(", 0⟩), (9, ⟨⟨10⟩, "(", 1⟩), (9, ⟨⟨11⟩, ")", 2⟩)]).expected 9).toOption) =
      some [⟨11⟩] := by decide +kernel
  rw [toOption_eq_some_iff.2 hc, Option.bind_eq_bind, Option.bind_some, toOption_eq_some_iff.2 hp,
    Option.bind_eq_bind, Option.bind_some] at hrun
  obtain ⟨hsorted', hmem'⟩ := Table.expected_eq_ok (toOption_eq_some_iff.1 hrun)
  obtain ⟨-, htakes⟩ := Table.expected_eq_ok (hbound bound le_rfl).1
  obtain rfl : symbols = [⟨11⟩] :=
    Table.eq_of_pairwise_id_lt hsorted hsorted' fun x => (htakes x).trans (hmem' x).symm
  refine ⟨c, p, bound, hc, hp, fun x => ?_, fun fuel hfuel => ⟨(hbound fuel hfuel).1, ?_⟩⟩
  · exact (hmem x).symm.trans List.mem_singleton
  · exact (hbound fuel hfuel).2 ⟨⟨10⟩, "(", 3⟩ ⟨10⟩ _ rfl (by decide) (by simp [Tree.context])

end Grammar

end Lalr
