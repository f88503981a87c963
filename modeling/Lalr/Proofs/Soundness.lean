import Lalr.Proofs.Calls
import Lalr.Proofs.Trees

/-!
# Soundness of parsing

The stack of a parser that makes trees holds derivation trees.  Their roots spell the path through the
automaton, and their leaves, from the root of the stack up, are the tokens that have been shifted.  This is
the invariant `Stack.Builds`.  A shift adds a leaf to it, and a reduction joins the trees over the body of its
rule into one; that these are the trees on top of the stack is what the path through the automaton is for.

A parser accepts by the complete augmenting rule when a single tree is left, so that tree is a derivation
tree of everything that was shifted.  This holds whatever the context answers to tokens and to rejections,
under any limit, and with conflicts resolved in favour of shifting: each action of the table is justified by
the items of its state, and nothing else is used.
-/

namespace Lalr

variable {σ : Type}

/-- The context makes the tree of what the parser does, and `root` finds the accepted tree in its memory. -/
structure Tree.Keeps (context : Context σ Tree) (root : σ → Option Tree) : Prop where
  terminal : ∀ token memory, (context.terminal token memory).1 = .leaf token
  nonterminal : ∀ r children memory, (context.nonterminal r children memory).1 = .node r children
  accept : ∀ tree memory, root (context.accept tree memory) = some tree

/-! ### The invariant of the stack -/

namespace Stack

/-- A leaf on top of the stack is its last leaf. -/
lemma leaves_push_leaf (s : Stack Tree) (token : Token) (m : Nat) :
    Tree.leavesOfAll (s.push (.leaf token) m).nodesFromRoot = Tree.leavesOfAll s.nodesFromRoot ++ [token] := by
  simp [nodesFromRoot, push]

/-- A node in place of the trees on top of the stack has their leaves. -/
lemma leaves_push_node {s s' : Stack Tree} {n : Nat} (h : s'.nodes = s.nodes.drop n) (r : Rule) (m : Nat) :
    Tree.leavesOfAll (s'.push (.node r (s.nodes.take n).reverse) m).nodesFromRoot =
      Tree.leavesOfAll s.nodesFromRoot := by
  -- the popped trees and those below them are all the trees there were
  conv_rhs => rw [nodesFromRoot, ← List.take_append_drop n s.nodes, List.reverse_append]
  simp [nodesFromRoot, push, h]

/-- The stack holds derivation trees, whose roots follow the automaton and whose leaves are the tokens. -/
structure Builds (grammar : Grammar) (a : Automaton) (s : Stack Tree) (tokens : List Token) : Prop where
  spells : s.path.Spells a (s.nodes.map Tree.symbol)
  isDerivation : ∀ t ∈ s.nodes, t.IsDerivation grammar
  leaves : Tree.leavesOfAll s.nodesFromRoot = tokens

variable {grammar : Grammar} {a : Automaton} {s : Stack Tree} {tokens : List Token}

/-- Nothing has been shifted onto the root. -/
lemma builds_root : (root 0 : Stack Tree).Builds grammar a [] :=
  ⟨.root, nofun, by simp [root, nodesFromRoot]⟩

/-- Shifting a token adds a leaf. -/
lemma Builds.shift (h : s.Builds grammar a tokens) {token : Token} {m : Nat}
    (ht : grammar.classification.IsTerminal token.symbol) (hgoto : a.goto? s.top token.symbol = some m) :
    (s.push (.leaf token) m).Builds grammar a (tokens ++ [token]) := by
  refine ⟨.push h.spells hgoto, ?_, ?_⟩
  · intro t hmem
    rcases List.mem_cons.1 hmem with rfl | hmem
    · exact .leaf ht
    · exact h.isDerivation t hmem
  · rw [leaves_push_leaf, h.leaves]

/-- Reducing joins the trees over the body of the rule. -/
lemma Builds.reduce (h : s.Builds grammar a tokens) {r : Rule} {s' : Stack Tree} {ω : List Symbol} {m : Nat}
    (hr : grammar.rules[r.index]? = some r) (hp : (r.lhs, r.rhs) ∈ grammar.productions)
    (hω : s.nodes.map Tree.symbol = r.rhs.reverse ++ ω) (hnodes : s'.nodes = s.nodes.drop r.rhs.length)
    (hspells : s'.path.Spells a ω) (hgoto : a.goto? s'.top r.lhs = some m) :
    (s'.push (.node r (s.nodes.take r.rhs.length).reverse) m).Builds grammar a tokens := by
  have hbody : (s.nodes.take r.rhs.length).reverse.map Tree.symbol = r.rhs := by
    rw [List.map_reverse, List.map_take, hω, List.take_left' (by simp), List.reverse_reverse]
  have hrest : s'.nodes.map Tree.symbol = ω := by
    rw [hnodes, List.map_drop, hω, List.drop_left' (by simp)]
  refine ⟨.push (hrest ▸ hspells) hgoto, ?_, ?_⟩
  · intro t hmem
    rcases List.mem_cons.1 hmem with rfl | hmem
    · refine .node hr hp hbody fun child hchild => h.isDerivation child ?_
      exact List.mem_of_mem_take (List.mem_reverse.1 hchild)
    · rw [hnodes] at hmem
      exact h.isDerivation t (List.mem_of_mem_drop hmem)
  · rw [leaves_push_node hnodes, h.leaves]

end Stack

/-! ### The invariant of the parser -/

namespace Parser

variable {grammar : Grammar} {g : Augmented} {a : Automaton} {root : σ → Option Tree}

/-- The parser runs the table of the automaton with a context that makes trees, and its stack holds
derivation trees over the tokens. -/
structure Builds (grammar : Grammar) (g : Augmented) (a : Automaton) (root : σ → Option Tree)
    (p : Parser σ Tree) (tokens : List Token) : Prop where
  fits : p.table.Fits g a
  keeps : Tree.Keeps p.context root
  stack : p.stack.Builds grammar a tokens

/-- The memory holds a derivation tree from the start symbol over the tokens. -/
def Accepts (grammar : Grammar) (root : σ → Option Tree) (memory : σ) (tokens : List Token) : Prop :=
  ∃ tree, root memory = some tree ∧ tree.IsDerivation grammar ∧ tree.symbol = grammar.start ∧
    tree.leaves = tokens

/-- A parser that matches one with the invariant and has the same stack has the invariant. -/
lemma Builds.of_matches {p q : Parser σ Tree} {tokens : List Token}
    (h : p.Builds grammar g a root tokens) (hmatches : p.Matches q) (hstack : q.stack = p.stack) :
    q.Builds grammar g a root tokens :=
  ⟨hmatches.table ▸ h.fits, hmatches.context ▸ h.keeps, hstack ▸ h.stack⟩

section

variable (haugment : grammar.augment = .ok g) (ha : a.Closed g)
include haugment ha

/-- Reducing keeps the invariant. -/
lemma Builds.reduce {p q : Parser σ Tree} {tokens : List Token} (h : p.Builds grammar g a root tokens)
    {x : Symbol} (hq : Parser.Reduces x p q) : q.Builds grammar g a root tokens := by
  have wf := Grammar.wellFormed_of_augment haugment
  obtain ⟨-, -, -, -, hrules, -⟩ := Grammar.augment_eq_ok haugment
  obtain ⟨k, r, s, m, ω, hne, hr, hnodes, hω, hspells, hgoto, hmatches, hstack⟩ :=
    hq.exists_push wf ha h.fits h.stack.spells
  refine ⟨hmatches.table ▸ h.fits, hmatches.context ▸ h.keeps, ?_⟩
  rw [hstack, h.keeps.nonterminal]
  have hp := Grammar.mem_productions_of_ne_zero haugment hne hr
  refine h.stack.reduce ?_ hp hω hnodes hspells hgoto
  rw [wf.index_eq hr, ← hrules]
  exact hr

/-- Where the table accepts, the tree that is handed to the context is a derivation tree of the tokens. -/
lemma Builds.accept {p q : Parser σ Tree} {tokens : List Token} (h : p.Builds grammar g a root tokens)
    {x : Symbol} (hx : p.table.action? p.stack.top x = some .accept) (hq : p.accept = .ok q) :
    Accepts grammar root q.memory tokens := by
  have wf := Grammar.wellFormed_of_augment haugment
  obtain ⟨-, -, hstart, -⟩ := Grammar.augment_eq_ok haugment
  obtain ⟨-, hreducible⟩ := h.fits.of_accept hx
  obtain ⟨r, -, ω, hr, -, hω, -⟩ := h.stack.spells.exists_drop?_of_reducible ha hreducible
  obtain rfl := Option.some.inj (wf.augmenting.symm.trans hr)
  obtain ⟨node, s, hpop, hroot, rfl⟩ := accept_eq_ok hq
  have hnodes : p.stack.nodes = [node] := by
    rw [Stack.nodes_of_pop? hpop, List.isEmpty_iff.1 hroot]
  have hsymbol : node.symbol = g.start := by
    rw [hnodes] at hω
    exact (List.cons.inj hω).1
  refine ⟨node, h.keeps.accept node p.memory, h.stack.isDerivation node (by simp [hnodes]),
    hsymbol.trans hstart, ?_⟩
  rw [← h.stack.leaves, Stack.nodesFromRoot, hnodes]
  simp

omit haugment ha in
/-- A parser that is created for a fitting table, with a context that makes trees, starts with the invariant. -/
lemma builds_of_create {table : Table} {context : Context σ Tree} {memory : σ} {p : Parser σ Tree}
    (hfits : table.Fits g a) (hkeeps : Tree.Keeps context root) (h : create table context memory = .ok p)
    (limit : Nat) : ({ p with limit } : Parser σ Tree).Builds grammar g a root [] := by
  obtain ⟨-, rfl⟩ := create_eq_ok h
  exact ⟨hfits, hkeeps, hfits.spells_root, nofun, by simp [Stack.root, Stack.nodesFromRoot]⟩

/-- Reductions and shifts keep the invariant. -/
lemma invariant_builds : Invariant fun (p : Parser σ Tree) tokens => p.Builds grammar g a root tokens where
  of_matches h hmatches hstack := h.of_matches hmatches hstack
  reduce h hq := h.reduce haugment ha hq
  shift {p tokens token m} h haction := by
    obtain ⟨-, -, -, hkinds, -⟩ := Grammar.augment_eq_ok haugment
    obtain ⟨ht, hgoto⟩ := h.fits.of_shift haction
    refine ⟨h.fits, h.keeps, ?_⟩
    change (p.stack.push (p.context.terminal token p.memory).1 m).Builds grammar a _
    rw [h.keeps.terminal]
    exact h.stack.shift (hkinds ▸ ht) hgoto

/-- After any calls the parse is over, or the stack holds derivation trees over what they have read. -/
lemma Builds.exists_reads (calls : List (Nat × Token)) {p : Parser σ Tree} {tokens : List Token}
    (h : p.Builds grammar g a root tokens) :
    ∃ read, p.Reads calls read ∧
      ((p.after calls).isFinished = true ∨ (p.after calls).Builds grammar g a root (tokens ++ read)) :=
  (invariant_builds haugment ha).exists_reads h calls

/-- As long as the parse is not over, the leaves on the stack are the tokens that have been read. -/
lemma Builds.reads_leaves (calls : List (Nat × Token)) {p : Parser σ Tree}
    (h : p.Builds grammar g a root []) (hunfinished : (p.after calls).isFinished = false) :
    p.Reads calls (Tree.leavesOfAll (p.after calls).stack.nodesFromRoot) := by
  obtain ⟨read, hread, hfinished | hafter⟩ := h.exists_reads haugment ha calls
  · cases hunfinished.symm.trans hfinished
  · rw [hafter.stack.leaves]
    exact hread

/-- A call that accepts hands a derivation tree over the tokens on the stack to the context. -/
lemma Builds.accepts {p : Parser σ Tree} {tokens : List Token} (h : p.Builds grammar g a root tokens)
    {fuel : Nat} {token : Token} (haccepted : (p.process fuel token).outcome = .progress .accepted) :
    Accepts grammar root (p.process fuel token).parser.memory tokens := by
  rcases (invariant_builds haugment ha).process_cases h fuel token with
    ⟨x, -, hshifted, -⟩ | ⟨q, x, hq, haction, haccept, -⟩ | ⟨-, hne, -⟩
  · rw [hshifted] at haccepted
    cases haccepted
  · exact hq.accept haugment ha haction haccept
  · exact absurd haccepted hne

end

end Parser

namespace Grammar

/-- Every tree that a parser for a constructed table hands to its context is a derivation tree of the grammar
from its start symbol, and its leaves are the tokens that were shifted. -/
theorem accepted_isDerivation {grammar : Grammar} {g : Augmented} (haugment : grammar.augment = .ok g)
    (verbose : Bool) :
    ∃ c, grammar.construct verbose = .ok c ∧
      ∀ {σ : Type} {context : Context σ Tree} {root : σ → Option Tree} {memory : σ} {p : Parser σ Tree},
        Tree.Keeps context root → Parser.create c.table context memory = .ok p →
        ∀ (limit : Nat) (calls : List (Nat × Token)) (fuel : Nat) (token : Token),
          ((({ p with limit } : Parser σ Tree).after calls).process fuel token).outcome =
            .progress .accepted →
          ∃ r children,
            root ((({ p with limit } : Parser σ Tree).after calls).process fuel token).parser.memory =
              some (.node r children) ∧
            (Tree.node r children).IsDerivation grammar ∧ r.lhs = grammar.start ∧
            (∀ tokens, ({ p with limit } : Parser σ Tree).Reads calls tokens ↔
              tokens = (Tree.node r children).leaves) ∧
            Derives grammar.productions [grammar.start]
              ((Tree.node r children).leaves.map Token.symbol) := by
  obtain ⟨c, hc, -, hclosed, hfits⟩ := exists_construct_eq_ok haugment verbose
  refine ⟨c, hc, ?_⟩
  intro σ context root memory p hkeeps hcreate limit calls fuel token haccepted
  obtain ⟨-, rfl⟩ := Parser.create_eq_ok hcreate
  set p₀ : Parser σ Tree := { table := c.table, context, memory, stack := Stack.root c.table.start, limit }
  have hbuilds : p₀.Builds grammar g c.automaton root [] := by
    refine ⟨hfits, hkeeps, ?_⟩
    change (Stack.root c.table.start).Builds grammar c.automaton []
    rw [hfits.start]
    exact Stack.builds_root
  obtain ⟨read, hread, hfinished | hafter⟩ := hbuilds.exists_reads haugment hclosed calls
  · rw [Parser.process_of_isFinished hfinished] at haccepted
    cases haccepted
  · obtain ⟨tree, htree, hderivation, hsymbol, hleaves⟩ := hafter.accepts haugment hclosed haccepted
    rw [List.nil_append] at hleaves
    have hderives := hderivation.derives
    rw [hsymbol] at hderives
    cases hderivation with
    | leaf hterminal =>
      exact absurd (hsymbol ▸ hterminal) (not_isTerminal_start haugment)
    | @node r children hr hp hspell hchildren =>
      refine ⟨r, children, htree, .node hr hp hspell hchildren, hsymbol, fun tokens => ⟨fun h => ?_, ?_⟩,
        hderives⟩
      · rw [hleaves]
        exact h.unique hread
      · rintro rfl
        exact hleaves ▸ hread

/-- A parser for nested pairs accepts one pair. -/
lemma exists_accepted_nested :
    ∃ c p, nested.construct false = .ok c ∧ Parser.create c.table Tree.context none = .ok p ∧
      ((p.after [(9, ⟨⟨10⟩, "(", 0⟩), (9, ⟨⟨11⟩, ")", 1⟩)]).process 9 (Token.eof 2)).outcome =
        .progress .accepted := by
  have hrun : (do
      let c ← (nested.construct false).toOption
      let p ← (Parser.create c.table Tree.context none).toOption
      some ((p.after [(9, ⟨⟨10⟩, "(", 0⟩), (9, ⟨⟨11⟩, ")", 1⟩)]).process 9 (Token.eof 2)).outcome) =
      some (.progress .accepted) := by decide +kernel
  obtain ⟨c, hc, hrun⟩ := Option.bind_eq_some_iff.1 hrun
  obtain ⟨p, hp, hrun⟩ := Option.bind_eq_some_iff.1 hrun
  exact ⟨c, p, toOption_eq_some_iff.1 hc, toOption_eq_some_iff.1 hp, Option.some.inj hrun⟩

/-- The accepted tree of one nested pair is a derivation tree, and its leaves are the tokens read. -/
theorem accepted_isDerivation_nested :
    ∃ c p r children, nested.construct false = .ok c ∧ Parser.create c.table Tree.context none = .ok p ∧
      ((p.after [(9, ⟨⟨10⟩, "(", 0⟩), (9, ⟨⟨11⟩, ")", 1⟩)]).process 9 (Token.eof 2)).parser.memory =
        some (.node r children) ∧
      (Tree.node r children).IsDerivation nested ∧ r.lhs = ⟨1⟩ ∧
      p.Reads [(9, ⟨⟨10⟩, "(", 0⟩), (9, ⟨⟨11⟩, ")", 1⟩)] (Tree.node r children).leaves := by
  obtain ⟨g, hg⟩ := exists_augment_nested
  obtain ⟨c, p, hc, hp, haccepted⟩ := exists_accepted_nested
  obtain ⟨c', hc', hall⟩ := accepted_isDerivation hg false
  obtain rfl := Except.ok.inj (hc.symm.trans hc')
  have hkeeps : Tree.Keeps Tree.context id := ⟨fun _ _ => rfl, fun _ _ _ => rfl, fun _ _ => rfl⟩
  obtain ⟨r, children, hroot, hderivation, hlhs, hread, -⟩ :=
    hall hkeeps hp p.limit [(9, ⟨⟨10⟩, "(", 0⟩), (9, ⟨⟨11⟩, ")", 1⟩)] 9 (Token.eof 2) haccepted
  exact ⟨c, p, r, children, hc, hp, hroot, hderivation, hlhs, (hread _).2 rfl⟩

end Grammar

end Lalr
