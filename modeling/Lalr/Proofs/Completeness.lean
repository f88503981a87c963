import Lalr.Proofs.Driving

/-!
# Completeness of parsing

Every derivation tree is a run of the table.  The run of a tree starts in a state that has a transition on its
root and, where the tree is a node, the beginning of its rule with the next token as a lookahead; it ends with
the tree on top of the stack and the next token still to come (`Automaton.Runs`).  The run of a node is made
of the runs of its children and a reduction.  Between the children the dot of the rule moves along the
states, and the lookahead that a child needs is what the leaves of the following children, or else the next
token, begin with (`Automaton.exists_runs_forest`).

What the table does is determined, and it stops once it accepts.  Therefore a string of terminals has at most
one derivation tree (`Automaton.eq_of_leaves_eq`), and a parser that is given a derivable string finds it.
All this needs the table to make every move that the items call for, which it does when there are no
conflicts.
-/

namespace Lalr

/-- Where nodes can be popped down to a stack with one more node on it, that node can be popped too. -/
lemma Stack.popInto?_succ {N : Type} {n m : Nat} {acc children : List N} {s t : Stack N} {node : N}
    (h : s.popInto? n acc = some (children, t.push node m)) :
    s.popInto? (n + 1) acc = some (node :: children, t) := by
  induction n generalizing acc s with
  | zero =>
    obtain ⟨rfl, rfl⟩ := Prod.mk.inj (Option.some.inj h)
    rfl
  | succ n ih =>
    rw [popInto?] at h ⊢
    cases hpop : s.pop? with
    | none => simp [hpop] at h
    | some r =>
      rw [hpop] at h
      exact ih h

/-- Popping one node into a list is popping it. -/
lemma Stack.pop?_of_popMany?_one {N : Type} {s t : Stack N} {node : N}
    (h : s.popMany? 1 = some ([node], t)) : s.pop? = some (node, t) := by
  unfold popMany? at h
  rw [popInto?] at h
  cases hpop : s.pop? with
  | none => simp [hpop] at h
  | some r => simpa [hpop, popInto?, Prod.ext_iff] using h

namespace Automaton

variable {grammar : Grammar} {g : Augmented} {a : Automaton} {t : Table}

/-- The tree is a run of the table from every stack on which its root is called for. -/
def Runs (a : Automaton) (t : Table) (tree : Tree) : Prop :=
  ∀ (s : Stack Tree) (m : Nat) (next : Token) (rest : List Token), a.goto? s.top tree.symbol = some m →
    (∀ r children, tree = .node r children → LooksAt a.states s.top ⟨r.index, 0⟩ next.symbol) →
    Relation.ReflTransGen t.Moves (s, tree.leaves ++ next :: rest) (s.push tree m, next :: rest)

section

variable (haugment : grammar.augment = .ok g) (ha : a.Closed g) (ht : t.Fits g a) (hfree : a.ConflictFree g)
include haugment

/-- What the leaves of a row of derivation trees and the token behind them begin with leads the symbols of the
row. -/
lemma leads_of_leaves {ts : List Tree} (hts : ∀ u ∈ ts, u.IsDerivation grammar) {next token : Token}
    {rest tokens : List Token} (htokens : Tree.leavesOfAll ts ++ next :: rest = token :: tokens) :
    Leads g.productions g.kinds (ts.map Tree.symbol) next.symbol token.symbol := by
  obtain ⟨-, -, -, hkinds, -⟩ := Grammar.augment_eq_ok haugment
  have hderives : Derives g.productions (ts.map Tree.symbol) ((Tree.leavesOfAll ts).map Token.symbol) := by
    refine (Tree.derives_leavesOfAll fun u hu => (hts u hu).derives).mono fun p hp => ?_
    exact (Grammar.mem_productions_iff haugment).2 (List.mem_cons_of_mem _ hp)
  cases hleaves : Tree.leavesOfAll ts with
  | nil =>
    rw [hleaves] at hderives htokens
    obtain ⟨rfl, -⟩ := List.cons.inj htokens
    exact leads_self (forall_nullable_iff.2 hderives) _
  | cons first leaves =>
    rw [hleaves] at hderives htokens
    obtain ⟨rfl, -⟩ := List.cons.inj htokens
    obtain ⟨u, hu, hmem⟩ := Tree.mem_leavesOfAll.1 (hleaves ▸ List.mem_cons_self)
    have hterminal : g.kinds.IsTerminal first.symbol := hkinds ▸ (hts u hu).isTerminal_of_mem hmem
    exact Or.inl (starts_of_derives hterminal hderives)

include ha

/-- The runs of the trees over the rest of a body make a run that moves the dot to the end of the body. -/
lemma exists_runs_forest {ts : List Tree} (hts : ∀ u ∈ ts, u.IsDerivation grammar)
    (hruns : ∀ u ∈ ts, a.Runs t u) {c : Core} {r : Rule} (hr : g.rules[c.rule]? = some r)
    (hdrop : r.rhs.drop c.dot = ts.map Tree.symbol) {s : Stack Tree} {next : Token}
    (hlooks : LooksAt a.states s.top c next.symbol) (rest : List Token) :
    ∃ s', Relation.ReflTransGen t.Moves (s, Tree.leavesOfAll ts ++ next :: rest) (s', next :: rest) ∧
      s'.popMany? ts.length = some (ts, s) ∧
      LooksAt a.states s'.top ⟨c.rule, c.dot + ts.length⟩ next.symbol := by
  have wf := Grammar.wellFormed_of_augment haugment
  obtain ⟨-, -, -, -, hrules, -⟩ := Grammar.augment_eq_ok haugment
  induction ts generalizing c s with
  | nil => exact ⟨s, by simpa using .refl, rfl, hlooks⟩
  | cons u ts ih =>
    obtain ⟨hu, hts⟩ := List.forall_mem_cons.1 hts
    obtain ⟨hurun, hruns⟩ := List.forall_mem_cons.1 hruns
    have hm : g.Marks c u.symbol (ts.map Tree.symbol) := ⟨r, hr, hdrop⟩
    obtain ⟨m, hgoto⟩ := ha.explored.exists_target ⟨c, _, ha.reaches hlooks.hasAt, hm⟩
    -- what comes after the first tree is its lookahead
    obtain ⟨token, tokens, htokens⟩ :
        ∃ token tokens, Tree.leavesOfAll ts ++ next :: rest = token :: tokens :=
      List.exists_cons_of_ne_nil (by simp)
    have hleads := leads_of_leaves haugment hts htokens
    have hbegin : ∀ r' children, u = .node r' children →
        LooksAt a.states s.top ⟨r'.index, 0⟩ token.symbol := by
      rintro r' children rfl
      cases hu with
      | node hr' _ _ _ => exact ha.expand hlooks ⟨r', hrules ▸ hr', hm⟩ hleads
    have hfirst := hurun s m token tokens hgoto hbegin
    have hadvance : LooksAt a.states (s.push u m).top c.advance next.symbol := ha.advance wf hlooks hm hgoto
    have hdrop' : r.rhs.drop c.advance.dot = ts.map Tree.symbol := by
      obtain ⟨r', hr', -, hrest⟩ := hm.getElem?
      obtain rfl := Option.some.inj (hr.symm.trans hr')
      exact hrest
    obtain ⟨s', hrun, hpop, hlooks'⟩ := ih hts hruns (c := c.advance) hr hdrop' hadvance
    refine ⟨s', ?_, Stack.popInto?_succ hpop, ?_⟩
    · rw [Tree.leavesOfAll_cons, List.append_assoc, htokens]
      rw [htokens] at hrun
      exact hfirst.trans hrun
    · have hdot : c.advance.dot + ts.length = c.dot + (u :: ts).length := by
        simp only [Core.advance, List.length_cons]
        omega
      rw [← hdot]
      exact hlooks'

include ht hfree

/-- Every derivation tree is a run of the table. -/
lemma runs_of_isDerivation {tree : Tree} (h : tree.IsDerivation grammar) : a.Runs t tree := by
  have wf := Grammar.wellFormed_of_augment haugment
  obtain ⟨hdefects, hinit, -, hkinds, hrules, -⟩ := Grammar.augment_eq_ok haugment
  induction h with
  | leaf hterminal =>
    intro s m next rest hgoto _
    rw [Tree.leaves_leaf]
    refine .single (.shift (ht.action?_of_candidate ha.explored hfree (hkinds ▸ hterminal) ?_))
    exact .shift hgoto
  | @node r children hr hp hspell hchildren ih =>
    intro s m next rest hgoto hlooks
    have hlooks := hlooks r children rfl
    rw [← hrules] at hr
    have hne : r.index ≠ 0 := by
      intro hzero
      rw [hzero, wf.augmenting] at hr
      have hlhs : r.lhs = grammar.init := hinit ▸ (congrArg Rule.lhs (Option.some.inj hr)).symm
      exact Grammar.lhs_ne_init hdefects hp hlhs
    obtain ⟨s', hrun, hpop, hlooks'⟩ := exists_runs_forest haugment ha hchildren ih (c := ⟨r.index, 0⟩)
      hr hspell.symm hlooks rest
    have hlength : children.length = r.rhs.length := by rw [← hspell, List.length_map]
    rw [Nat.zero_add, hlength] at hlooks'
    have hterminal := ha.isTerminal wf hlooks'
    have haction : t.action? s'.top next.symbol = some (.reduce r.index) :=
      ht.action?_of_candidate ha.explored hfree hterminal (.reduce ⟨hr, rfl⟩ hne hlooks')
    have hafter : t.gotoAfter s.top r = .ok m := by
      unfold Table.gotoAfter
      rw [ht.action?_of_isNonterminal ha.explored (wf.isNonterminal_lhs hr),
        show a.goto? s.top r.lhs = some m from hgoto]
      rfl
    rw [hlength] at hpop
    rw [Tree.leaves_node]
    exact hrun.tail (.reduce (.join haction (ht.rules ▸ hr) hpop hafter))

/-- A derivation tree from the start symbol takes the table from the root of the stack to acceptance. -/
lemma exists_run_accept {tree : Tree} (h : tree.IsDerivation grammar) (hstart : tree.symbol = grammar.start)
    (position : Nat) :
    ∃ s, Relation.ReflTransGen t.Moves (Stack.root 0, tree.leaves ++ [Token.eof position])
        (s, [Token.eof position]) ∧
      s.pop? = some (tree, Stack.root 0) ∧ t.action? s.top Symbol.eof = some .accept := by
  have wf := Grammar.wellFormed_of_augment haugment
  obtain ⟨-, -, hstart', -⟩ := Grammar.augment_eq_ok haugment
  have hall : ∀ u ∈ [tree], u.IsDerivation grammar := by simpa using h
  have hbegin : LooksAt a.states (Stack.root 0 : Stack Tree).top ⟨0, 0⟩ (Token.eof position).symbol :=
    ha.start
  obtain ⟨s, hrun, hpop, hlooks⟩ := exists_runs_forest haugment ha hall
    (fun u hu => runs_of_isDerivation haugment ha ht hfree (hall u hu)) wf.augmenting
    (by simp [hstart, hstart']) hbegin []
  refine ⟨s, by simpa using hrun, Stack.pop?_of_popMany?_one hpop, ?_⟩
  exact ht.action?_of_candidate ha.explored hfree wf.eof (.accept ⟨wf.augmenting, rfl⟩ rfl hlooks rfl)

/-- Two derivation trees from the start symbol with the same leaves are equal. -/
lemma eq_of_leaves_eq {tree tree' : Tree} (h : tree.IsDerivation grammar) (h' : tree'.IsDerivation grammar)
    (hstart : tree.symbol = grammar.start) (hstart' : tree'.symbol = grammar.start)
    (hleaves : tree.leaves = tree'.leaves) : tree = tree' := by
  obtain ⟨s, hrun, hpop, haccept⟩ := exists_run_accept haugment ha ht hfree h hstart 0
  obtain ⟨s', hrun', hpop', haccept'⟩ := exists_run_accept haugment ha ht hfree h' hstart' 0
  -- the table has no moves once it accepts
  have hstop {s : Stack Tree} {x : Stack Tree × List Token}
      (haccept : t.action? s.top Symbol.eof = some .accept)
      (hmoves : Relation.ReflTransGen t.Moves (s, [Token.eof 0]) x) : (s, [Token.eof 0]) = x := by
    rcases hmoves.cases_head with heq | ⟨y, hmove, -⟩
    · exact heq
    · cases hmove with
      | shift hshift => cases haccept.symm.trans hshift
      | reduce hreduce => exact absurd hreduce (Table.not_reduces haccept nofun)
  have hs : s = s' := by
    rw [← hleaves] at hrun'
    rcases hrun.total_of_right_unique Table.rightUnique_moves hrun' with hmoves | hmoves
    · exact (Prod.mk.inj (hstop haccept hmoves)).1
    · exact (Prod.mk.inj (hstop haccept' hmoves)).1.symm
  subst hs
  exact (Prod.mk.inj (Option.some.inj (hpop.symm.trans hpop'))).1

end

end Automaton

namespace Grammar

/-- Without conflicts, a parser is created for the constructed table.  For every terminal string that the
start symbol derives there is exactly one derivation tree, and a parser that is given the string with enough
fuel, under no limit and by a context that parses every token as what it is, shifts each of its tokens,
accepts at the end of input and hands that tree to the context. -/
theorem accepts_of_derives {grammar : Grammar} {g : Augmented} (haugment : grammar.augment = .ok g)
    (verbose : Bool) :
    ∃ c, grammar.construct verbose = .ok c ∧ (c.automaton.ConflictFree g →
      ∀ {σ : Type} {context : Context σ Tree} {root : σ → Option Tree} (memory : σ),
        Tree.Keeps context root → (∀ x text memory, (context.filter x text memory).1 = some x) →
        ∃ p, Parser.create c.table context memory = .ok p ∧
          ∀ tokens : List Token, (∀ token ∈ tokens, grammar.classification.IsTerminal token.symbol) →
            Derives grammar.productions [grammar.start] (tokens.map Token.symbol) →
            ∃ tree : Tree, tree.IsDerivation grammar ∧ tree.symbol = grammar.start ∧ tree.leaves = tokens ∧
              (∀ other : Tree, other.IsDerivation grammar → other.symbol = grammar.start →
                other.leaves = tokens → other = tree) ∧
              ∃ bound, ∀ fuel ≥ bound,
                (∀ before token rest, tokens = before ++ token :: rest →
                  ((p.after (before.map fun token => (fuel, token))).process fuel token).outcome =
                    .progress .shifted) ∧
                ∀ position,
                  ((p.after (tokens.map fun token => (fuel, token))).finish fuel position).outcome =
                    .progress .accepted ∧
                  root ((p.after (tokens.map fun token => (fuel, token))).finish fuel position).parser.memory =
                    some tree) := by
  obtain ⟨hdefects, -⟩ := augment_eq_ok haugment
  obtain ⟨c, hc, -, hclosed, hfits⟩ := exists_construct_eq_ok haugment verbose
  refine ⟨c, hc, fun hfree σ context root memory hkeeps hfilter => ?_⟩
  have hcreate : Parser.create c.table context memory =
      .ok { table := c.table, context, memory, stack := Stack.root c.table.start } := by
    simp [Parser.create, hfits.checkDeterministic_eq_ok hfree, bind, Except.bind]
  refine ⟨_, hcreate, fun tokens hterminal hderives => ?_⟩
  obtain ⟨ts, hsymbols, hleaves, hall⟩ := Tree.exists_forest hdefects hterminal hderives
  obtain ⟨tree, rfl⟩ : ∃ tree, ts = [tree] := by
    rw [← List.length_eq_one_iff, ← List.length_map Tree.symbol, hsymbols, List.length_singleton]
  obtain ⟨hstart, -⟩ := List.cons.inj hsymbols
  have htree : tree.IsDerivation grammar := hall tree List.mem_cons_self
  have hleaves : tree.leaves = tokens := by simpa using hleaves
  obtain ⟨s, hrun, hpop, haccept⟩ := Automaton.exists_run_accept haugment hclosed hfits hfree htree hstart 0
  rw [hleaves] at hrun
  obtain ⟨bound, hbound⟩ := Parser.exists_drive root (Table.feeds_of_moves hrun rfl rfl) haccept hpop rfl
  refine ⟨tree, htree, hstart, hleaves, fun other hother hstart' hleaves' => ?_, bound, fun fuel hfuel => ?_⟩
  · exact Automaton.eq_of_leaves_eq haugment hclosed hfits hfree hother htree hstart' hstart
      (hleaves'.trans hleaves.symm)
  · exact hbound fuel hfuel _ ⟨rfl, hkeeps, hfilter, rfl, rfl⟩ (congrArg Stack.root hfits.start)

/-- The construction for nested pairs has no conflicts. -/
lemma conflictFree_nested {g : Augmented} {c : Construction} (hg : nested.augment = .ok g)
    (hc : nested.construct false = .ok c) : c.automaton.ConflictFree g := by
  have hcheck : (do
      let g ← nested.augment.toOption
      let c ← (nested.construct false).toOption
      some (c.automaton.isConflictFree g)) = some true := by decide +kernel
  obtain ⟨g', hg', hcheck⟩ := Option.bind_eq_some_iff.1 hcheck
  obtain ⟨c', hc', hcheck⟩ := Option.bind_eq_some_iff.1 hcheck
  obtain rfl := Except.ok.inj (hg.symm.trans (toOption_eq_some_iff.1 hg'))
  obtain rfl := Except.ok.inj (hc.symm.trans (toOption_eq_some_iff.1 hc'))
  exact Automaton.conflictFree_of_isConflictFree (Option.some.inj hcheck)

/-- Two nested pairs are accepted, with the only derivation tree they have. -/
theorem accepts_of_derives_nested :
    ∃ c p tree, nested.construct false = .ok c ∧ Parser.create c.table Tree.context none = .ok p ∧
      Derives nested.productions [⟨1⟩] [⟨10⟩, ⟨10⟩, ⟨11⟩, ⟨11⟩] ∧ Tree.IsDerivation nested tree ∧
      tree.leaves = [⟨⟨10⟩, "(", 0⟩, ⟨⟨10⟩, "(", 1⟩, ⟨⟨11⟩, ")", 2⟩, ⟨⟨11⟩, ")", 3⟩] ∧
      ∃ bound, ∀ fuel ≥ bound, ((p.after [(fuel, ⟨⟨10⟩, "(", 0⟩), (fuel, ⟨⟨10⟩, "(", 1⟩),
        (fuel, ⟨⟨11⟩, ")", 2⟩), (fuel, ⟨⟨11⟩, ")", 3⟩)]).finish fuel 4).parser.memory = some tree := by
  obtain ⟨g, hg⟩ := exists_augment_nested
  obtain ⟨c, hc, hall⟩ := accepts_of_derives hg false
  have hkeeps : Tree.Keeps Tree.context id := ⟨fun _ _ => rfl, fun _ _ _ => rfl, fun _ _ => rfl⟩
  obtain ⟨p, hp, htokens⟩ := hall (conflictFree_nested hg hc) none hkeeps fun _ _ _ => rfl
  have hpair : ((⟨1⟩, [⟨10⟩, ⟨1⟩, ⟨11⟩]) : Symbol × Body) ∈ nested.productions := by decide +kernel
  have hnone : ((⟨1⟩, []) : Symbol × Body) ∈ nested.productions := by decide +kernel
  have hderives : Derives nested.productions [⟨1⟩] [⟨10⟩, ⟨10⟩, ⟨11⟩, ⟨11⟩] :=
    (((Relation.ReflTransGen.refl).tail ⟨_, hpair, [], [], rfl, rfl⟩).tail
      ⟨_, hpair, [⟨10⟩], [⟨11⟩], rfl, rfl⟩).tail ⟨_, hnone, [⟨10⟩, ⟨10⟩], [⟨11⟩, ⟨11⟩], rfl, rfl⟩
  obtain ⟨tree, htree, -, hleaves, -, bound, hbound⟩ :=
    htokens [⟨⟨10⟩, "(", 0⟩, ⟨⟨10⟩, "(", 1⟩, ⟨⟨11⟩, ")", 2⟩, ⟨⟨11⟩, ")", 3⟩]
      (by unfold Kinds.IsTerminal; decide +kernel) hderives
  exact ⟨c, p, tree, hc, hp, hderives, htree, hleaves, bound, fun fuel hfuel => ((hbound fuel hfuel).2 4).2⟩

end Grammar

end Lalr
