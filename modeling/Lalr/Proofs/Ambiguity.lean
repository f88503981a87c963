import Lalr.Proofs.Completeness
import Lalr.Proofs.Halting

/-!
# Symbols that stand for themselves

If a symbol that occurs stands for itself through a circle of productions, the grammar is ambiguous.  A row of
derivation trees over a string that contains the symbol can be carried back along the circle: the trees over each
body are joined into a node, and after the circle the row has the same symbols and the same leaves but more nodes
than before.  Carrying both rows back to the start symbol adds the same number of nodes to each of them, so that
two different trees over the same tokens come out.

Without conflicts there is only one derivation tree over any tokens.  Hence no symbol stands for itself, and the
reductions under any symbol come to an end (`Grammar.halts_of_conflictFree`).
-/

namespace Lalr

/-! ### Circles of productions -/

/-- A symbol that stands for another one through a chain of productions derives it in at least one step. -/
lemma transGen_rewrites_of_standsFor {ps : List (Symbol × Body)} {A X : Symbol}
    (h : Relation.TransGen (StandsFor ps) A X) : Relation.TransGen (Rewrites ps) [A] [X] := by
  have hstep {A X : Symbol} (h : StandsFor ps A X) : Relation.TransGen (Rewrites ps) [A] [X] := by
    obtain ⟨rest, hp, hrest⟩ := h
    have hbody : Derives ps (X :: rest) [X] := by simpa using hrest.inside [X] []
    exact .head' (Rewrites.of_production hp) hbody
  induction h with
  | single h => exact hstep h
  | tail _ h ih => exact ih.trans (hstep h)

namespace Tree

variable {grammar : Grammar}

/-- A row of derivation trees can be carried back along a derivation, which adds a number of nodes that depends
on the derivation only. -/
lemma exists_forest_of_derives (hdefects : grammar.defects = []) {u v : Body}
    (h : Derives grammar.productions u v) :
    ∃ count, ∀ ts : List Tree, ts.map symbol = v → (∀ t ∈ ts, t.IsDerivation grammar) →
      ∃ us : List Tree, us.map symbol = u ∧ leavesOfAll us = leavesOfAll ts ∧
        nodeCountOfAll us = nodeCountOfAll ts + count ∧ ∀ t ∈ us, t.IsDerivation grammar := by
  induction h using Relation.ReflTransGen.head_induction_on with
  | refl => exact ⟨0, fun ts hts hall => ⟨ts, hts, rfl, rfl, hall⟩⟩
  | head hs _ ih =>
    obtain ⟨count, hcount⟩ := ih
    refine ⟨count + 1, fun ts hts hall => ?_⟩
    obtain ⟨us, rfl, hleaves, hnodes, hall'⟩ := hcount ts hts hall
    obtain ⟨us', hus', hleaves', hnodes', hall''⟩ := exists_forest_of_rewrites hdefects hs hall'
    exact ⟨us', hus', hleaves'.trans hleaves, by rw [hnodes', hnodes, Nat.add_assoc], hall''⟩

/-- Along a derivation of at least one step a row of derivation trees gets more nodes. -/
lemma exists_larger_forest (hdefects : grammar.defects = []) {u : Body} {ts : List Tree}
    (h : Relation.TransGen (Rewrites grammar.productions) u (ts.map symbol))
    (hts : ∀ t ∈ ts, t.IsDerivation grammar) :
    ∃ us : List Tree, us.map symbol = u ∧ leavesOfAll us = leavesOfAll ts ∧
      nodeCountOfAll ts < nodeCountOfAll us ∧ ∀ t ∈ us, t.IsDerivation grammar := by
  obtain ⟨v, hs, hderives⟩ := Relation.TransGen.head'_iff.1 h
  obtain ⟨count, hcount⟩ := exists_forest_of_derives hdefects hderives
  obtain ⟨us, rfl, hleaves, hnodes, hall⟩ := hcount ts rfl hts
  obtain ⟨us', hus', hleaves', hnodes', hall'⟩ := exists_forest_of_rewrites hdefects hs hall
  exact ⟨us', hus', hleaves'.trans hleaves, by omega, hall'⟩

end Tree

namespace Grammar

variable {grammar : Grammar} {g : Augmented} {a : Automaton} {t : Table}

section

variable (haugment : grammar.augment = .ok g)
  (hgenerates : ∀ A, grammar.classification.IsNonterminal A → grammar.Occurs A →
    Generates grammar.productions grammar.classification [A])
  (ha : a.Closed g) (ht : t.Fits g a) (hfree : a.ConflictFree g)
include haugment hgenerates ha ht hfree

/-- Without conflicts no symbol that occurs stands for itself. -/
lemma not_standsFor_of_conflictFree {A : Symbol} (hoccurs : grammar.Occurs A) :
    ¬ Relation.TransGen (StandsFor grammar.productions) A A := by
  intro hcircle
  obtain ⟨hdefects, -⟩ := augment_eq_ok haugment
  obtain ⟨before, after, hderives⟩ := hoccurs
  -- a row of trees over a string with the symbol in it
  have hall : ∀ X ∈ before ++ A :: after, grammar.Occurs X := fun X hX => by
    obtain ⟨left, right, heq⟩ := List.append_of_mem hX
    exact ⟨left, right, heq ▸ hderives⟩
  obtain ⟨w, hw, hterminal⟩ := generates_of_occurs haugment hgenerates hall
  have htokens : Derives grammar.productions (before ++ A :: after)
      ((w.map fun x => (⟨x, "", 0⟩ : Token)).map Token.symbol) := by
    rw [List.map_map]
    exact (List.map_id w).symm ▸ hw
  obtain ⟨ts, hts, -, htrees⟩ := Tree.exists_forest hdefects (by simpa using hterminal) htokens
  -- the same row carried back along the circle
  have hround : Relation.TransGen (Rewrites grammar.productions) (before ++ A :: after) (ts.map Tree.symbol) := by
    have hinside : Relation.TransGen (Rewrites grammar.productions) (before ++ [A] ++ after)
        (before ++ [A] ++ after) :=
      (transGen_rewrites_of_standsFor hcircle).lift (fun u => before ++ u ++ after)
        fun u v huv => huv.append before after
    rw [hts]
    simpa using hinside
  obtain ⟨us, hus, hleaves, hlarger, hutrees⟩ := Tree.exists_larger_forest hdefects hround htrees
  -- both rows carried back to the start symbol
  obtain ⟨count, hcount⟩ := Tree.exists_forest_of_derives hdefects hderives
  obtain ⟨ts', hts', hleaves₁, hnodes₁, htrees'⟩ := hcount ts hts htrees
  obtain ⟨us', hus', hleaves₂, hnodes₂, hutrees'⟩ := hcount us hus hutrees
  obtain ⟨tree, rfl, hstart⟩ := List.map_eq_singleton_iff.1 hts'
  obtain ⟨tree', rfl, hstart'⟩ := List.map_eq_singleton_iff.1 hus'
  have hsame : tree.leaves = tree'.leaves := by
    have heq := hleaves₁.trans (hleaves.symm.trans hleaves₂.symm)
    simpa using heq
  have htree := Automaton.eq_of_leaves_eq haugment ha ht hfree (htrees' tree List.mem_cons_self)
    (hutrees' tree' List.mem_cons_self) hstart hstart' hsame
  rw [htree] at hnodes₁
  omega

/-- Without conflicts the reductions under every symbol come to an end on every path through the automaton. -/
lemma halts_of_conflictFree (x : Symbol) {p : Path} {ω : List Symbol} (hp : p.Spells a ω) : t.Halts x p :=
  halts_of_acyclic haugment hgenerates ha ht
    (fun _ hoccurs => not_standsFor_of_conflictFree haugment hgenerates ha ht hfree hoccurs) x hp

end

/-! ### The initial symbol in no body -/

section

variable (haugment : grammar.augment = .ok g)
  (hgenerates : ∀ A, grammar.classification.IsNonterminal A →
    Generates grammar.augmentedProductions grammar.classification [A])
  (hinit : ∀ p ∈ grammar.productions, grammar.init ∉ p.2)

include hinit in
/-- Where the initial symbol is in no body, it is not needed to derive anything from a string without it. -/
lemma derives_of_augmented {u v : Body} (hu : grammar.init ∉ u)
    (h : Derives grammar.augmentedProductions u v) :
    Derives grammar.productions u v ∧ grammar.init ∉ v := by
  induction h with
  | refl => exact ⟨.refl, hu⟩
  | tail _ hs ih =>
    obtain ⟨hderives, hmem⟩ := ih
    obtain ⟨p, hp, before, after, rfl, rfl⟩ := hs
    rcases List.mem_cons.1 hp with rfl | hp
    · simp at hmem
    · refine ⟨hderives.tail ⟨p, hp, before, after, rfl, rfl⟩, ?_⟩
      have hbody := hinit p hp
      simp_all

include haugment hgenerates

/-- The start symbol is not the initial symbol, which would derive no terminals. -/
lemma start_ne_init : grammar.start ≠ grammar.init := by
  intro heq
  obtain ⟨hdefects, -⟩ := augment_eq_ok haugment
  have hkind : grammar.classification[grammar.init]? = some .nonterminal :=
    kind_of_role (show (Role.init, grammar.init, Kind.nonterminal) ∈ grammar.roles by simp [roles]) hdefects
  -- the only production of the initial symbol would lead back to it
  have hself {w : Body} (hw : Derives grammar.augmentedProductions [grammar.init] w) : w = [grammar.init] := by
    induction hw with
    | refl => rfl
    | tail _ hs ih =>
      subst ih
      rcases List.mem_cons.1 (rewrites_singleton_iff.1 hs) with hp | hp
      · rw [(Prod.mk.inj hp).2, heq]
      · exact absurd rfl (lhs_ne_init hdefects hp)
  obtain ⟨w, hw, hterminal⟩ := hgenerates grammar.init hkind
  have hcontra := hterminal grammar.init (by simp [hself hw])
  cases hkind.symm.trans hcontra

include hinit

/-- The initial symbol does not occur. -/
lemma not_occurs_init_of_generates : ¬ grammar.Occurs grammar.init := by
  intro hoccurs
  rcases hoccurs.eq_start_or_mem with heq | ⟨p, hp, hmem⟩
  · exact start_ne_init haugment hgenerates heq.symm
  · exact hinit p hp hmem

/-- The nonterminals that occur derive terminals by the given productions. -/
lemma generates_of_augmented {A : Symbol} (hA : grammar.classification.IsNonterminal A)
    (hoccurs : grammar.Occurs A) : Generates grammar.productions grammar.classification [A] := by
  obtain ⟨w, hw, hterminal⟩ := hgenerates A hA
  have hne : grammar.init ∉ [A] := by
    rintro hmem
    rw [List.mem_singleton] at hmem
    exact not_occurs_init_of_generates haugment hgenerates hinit (hmem ▸ hoccurs)
  exact ⟨w, (derives_of_augmented hinit hne hw).1, hterminal⟩

end

end Grammar

end Lalr
