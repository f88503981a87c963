import Lalr.Parser.Tree
import Lalr.Proofs.WellFormed

/-!
# Derivation trees

A syntax tree is a derivation tree of a grammar when its leaves are terminals and each inner node carries a
rule of the grammar whose body the roots of its children spell (`Tree.IsDerivation`).  The rule is one of the
numbered rules, so that two trees of the same shape are equal.

Derivation trees and derivations are two forms of the same thing: what the leaves of a derivation tree spell
is derived from its root (`Tree.IsDerivation.derives`), and a derivation of a string of terminals gives a row
of derivation trees, one for each symbol that it starts from (`Tree.exists_forest`).
-/

namespace Lalr

namespace Tree

/-- The tree is a derivation tree of the grammar. -/
inductive IsDerivation (grammar : Grammar) : Tree → Prop
  /-- A leaf is a terminal. -/
  | leaf {token : Token} (h : grammar.classification.IsTerminal token.symbol) :
      IsDerivation grammar (leaf token)
  /-- A node is a rule of the grammar whose body is spelled by derivation trees. -/
  | node {r : Rule} {children : List Tree} (hr : grammar.rules[r.index]? = some r)
      (hp : (r.lhs, r.rhs) ∈ grammar.productions) (hspell : children.map symbol = r.rhs)
      (h : ∀ child ∈ children, IsDerivation grammar child) : IsDerivation grammar (node r children)

@[simp] lemma symbol_leaf (token : Token) : (leaf token).symbol = token.symbol := rfl

@[simp] lemma symbol_node (r : Rule) (children : List Tree) : (node r children).symbol = r.lhs := rfl

@[simp] lemma leaves_leaf (token : Token) : (leaf token).leaves = [token] := by rw [leaves]

@[simp] lemma leaves_node (r : Rule) (children : List Tree) :
    (node r children).leaves = leavesOfAll children := by rw [leaves]

@[simp] lemma leavesOfAll_nil : leavesOfAll [] = [] := by rw [leavesOfAll]

@[simp] lemma leavesOfAll_cons (t : Tree) (rest : List Tree) :
    leavesOfAll (t :: rest) = t.leaves ++ leavesOfAll rest := by rw [leavesOfAll]

/-- The leaves of two rows of trees are the leaves of the first row and then those of the second. -/
@[simp] lemma leavesOfAll_append (ts us : List Tree) :
    leavesOfAll (ts ++ us) = leavesOfAll ts ++ leavesOfAll us := by
  induction ts with
  | nil => simp
  | cons t ts ih => simp [ih]

/-- A leaf of a row of trees is a leaf of one of them. -/
lemma mem_leavesOfAll {token : Token} {ts : List Tree} :
    token ∈ leavesOfAll ts ↔ ∃ t ∈ ts, token ∈ t.leaves := by
  induction ts with
  | nil => simp
  | cons t ts ih => simp [ih]

/-- The leaves of a row of leaves are its tokens. -/
lemma leavesOfAll_map_leaf (tokens : List Token) : leavesOfAll (tokens.map leaf) = tokens := by
  induction tokens with
  | nil => simp
  | cons token tokens ih => simp [ih]

variable {grammar : Grammar}

/-! ### From trees to derivations -/

/-- A row of symbols derives what each of its trees derives. -/
lemma derives_leavesOfAll {ps : List (Symbol × Body)} {ts : List Tree}
    (h : ∀ t ∈ ts, Derives ps [t.symbol] (t.leaves.map Token.symbol)) :
    Derives ps (ts.map symbol) ((leavesOfAll ts).map Token.symbol) := by
  induction ts with
  | nil => exact .refl
  | cons t ts ih =>
    rw [leavesOfAll_cons, List.map_append]
    exact (h t List.mem_cons_self).append (ih fun u hu => h u (List.mem_cons_of_mem t hu))

/-- The root of a derivation tree derives its leaves. -/
lemma IsDerivation.derives {t : Tree} (h : t.IsDerivation grammar) :
    Derives grammar.productions [t.symbol] (t.leaves.map Token.symbol) := by
  induction h with
  | leaf _ =>
    rw [leaves_leaf]
    exact .refl
  | node _ hp hspell _ ih =>
    rw [leaves_node]
    refine .head (Rewrites.of_production hp) ?_
    rw [← hspell]
    exact derives_leavesOfAll ih

/-- The leaves of a derivation tree are terminals. -/
lemma IsDerivation.isTerminal_of_mem {t : Tree} (h : t.IsDerivation grammar) {token : Token}
    (htoken : token ∈ t.leaves) : grammar.classification.IsTerminal token.symbol := by
  induction h with
  | leaf h =>
    rw [leaves_leaf, List.mem_singleton] at htoken
    exact htoken ▸ h
  | node _ _ _ _ ih =>
    rw [leaves_node, mem_leavesOfAll] at htoken
    obtain ⟨child, hchild, htoken⟩ := htoken
    exact ih child hchild htoken

/-! ### From derivations to trees -/

mutual

/-- The number of inner nodes. -/
def nodeCount : Tree → Nat
  | leaf _ => 0
  | node _ children => nodeCountOfAll children + 1

/-- The number of inner nodes of several trees. -/
def nodeCountOfAll : List Tree → Nat
  | [] => 0
  | t :: rest => t.nodeCount + nodeCountOfAll rest

end

@[simp] lemma nodeCount_node (r : Rule) (children : List Tree) :
    (node r children).nodeCount = nodeCountOfAll children + 1 := by rw [nodeCount]

@[simp] lemma nodeCountOfAll_nil : nodeCountOfAll [] = 0 := by rw [nodeCountOfAll]

@[simp] lemma nodeCountOfAll_cons (t : Tree) (rest : List Tree) :
    nodeCountOfAll (t :: rest) = t.nodeCount + nodeCountOfAll rest := by rw [nodeCountOfAll]

/-- The inner nodes of two rows of trees are those of the first row and those of the second. -/
@[simp] lemma nodeCountOfAll_append (ts us : List Tree) :
    nodeCountOfAll (ts ++ us) = nodeCountOfAll ts + nodeCountOfAll us := by
  induction ts with
  | nil => simp
  | cons t ts ih => simp [ih, Nat.add_assoc]

/-- A replacement joins the trees over the body into one node. -/
lemma exists_forest_of_rewrites (hdefects : grammar.defects = []) {u : Body} {ts : List Tree}
    (h : Rewrites grammar.productions u (ts.map symbol)) (hts : ∀ t ∈ ts, t.IsDerivation grammar) :
    ∃ us : List Tree, us.map symbol = u ∧ leavesOfAll us = leavesOfAll ts ∧
      nodeCountOfAll us = nodeCountOfAll ts + 1 ∧ ∀ t ∈ us, t.IsDerivation grammar := by
  obtain ⟨⟨A, ω⟩, hp, before, after, rfl, hsymbols⟩ := h
  obtain ⟨front, right, rfl, hfront, rfl⟩ := List.map_eq_append_iff.1 hsymbols
  obtain ⟨left, children, rfl, rfl, hchildren⟩ := List.map_eq_append_iff.1 hfront
  obtain ⟨r, hr, rfl, hrhs⟩ := Grammar.exists_rule_of_mem hp (Grammar.lhs_ne_init hdefects hp)
  have hnode : IsDerivation grammar (node r children) := by
    refine .node hr ?_ (hchildren.trans hrhs.symm) fun child hchild => hts child (by simp [hchild])
    rw [hrhs]
    exact hp
  refine ⟨left ++ node r children :: right, by simp, by simp, ?_, ?_⟩
  · simp only [nodeCountOfAll_append, nodeCountOfAll_cons, nodeCount_node]
    omega
  · intro t ht
    rcases List.mem_append.1 ht with ht | ht
    · exact hts t (by simp [ht])
    · rcases List.mem_cons.1 ht with rfl | ht
      · exact hnode
      · exact hts t (by simp [ht])

/-- A derivation of terminals gives a row of derivation trees, one for each symbol that it starts from. -/
lemma exists_forest (hdefects : grammar.defects = []) {u : Body} {tokens : List Token}
    (hterminal : ∀ token ∈ tokens, grammar.classification.IsTerminal token.symbol)
    (h : Derives grammar.productions u (tokens.map Token.symbol)) :
    ∃ ts : List Tree, ts.map symbol = u ∧ leavesOfAll ts = tokens ∧ ∀ t ∈ ts, t.IsDerivation grammar := by
  induction h using Relation.ReflTransGen.head_induction_on with
  | refl =>
    refine ⟨tokens.map leaf, ?_, leavesOfAll_map_leaf tokens, ?_⟩
    · rw [List.map_map]
      rfl
    · intro t ht
      obtain ⟨token, htoken, rfl⟩ := List.mem_map.1 ht
      exact .leaf (hterminal token htoken)
  | head hs _ ih =>
    obtain ⟨ts, rfl, hleaves, hall⟩ := ih
    obtain ⟨us, hus, hleaves', -, hall'⟩ := exists_forest_of_rewrites hdefects hs hall
    exact ⟨us, hus, hleaves'.trans hleaves, hall'⟩

end Tree

end Lalr
