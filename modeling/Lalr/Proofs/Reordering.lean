import Lalr.Parser.Tree
import Lalr.Proofs.Isomorphism
import Lalr.Proofs.Saturation
import Lalr.Proofs.Soundness

/-!
# The order of the productions

The productions of a grammar are a list, in an order and with repetitions that mean nothing.  Two grammars that
differ in nothing else (`Grammar.Reordered`) have the same defects, because a defect speaks of the set of the
productions.  Without defects their rules are the same up to their numbers (`Reordered.exists_perm`), so that the
augmented grammars are isomorphic and the tables have the same cells up to the numbers of states and rules.

A parser makes a tree of the rules of its table.  With the rules of its nodes renumbered (`Tree.renumber`), the tree
is that of the other table: renumbering trees is a faithful translation of parsers (`Table.Renumbers.faithful`).
-/

namespace Lalr

/-! ### Renumbered trees -/

namespace Tree

variable (ν : Renumbering)

mutual

/-- The tree with other numbers for the rules of its nodes. -/
def renumber : Tree → Tree
  | leaf token => leaf token
  | node r children => node (r.renumber ν) (renumberAll children)

/-- The trees with other numbers for the rules of their nodes. -/
def renumberAll : List Tree → List Tree
  | [] => []
  | t :: rest => t.renumber :: renumberAll rest

end

/-- Several trees are renumbered one by one. -/
lemma renumberAll_eq_map (ts : List Tree) : renumberAll ν ts = ts.map (renumber ν) := by
  induction ts with
  | nil => rfl
  | cons t ts ih => rw [renumberAll, ih, List.map_cons]

/-- How a parser that makes trees is carried over to another table. -/
def translation (u : Table) : Translation (Option Tree) Tree (Option Tree) Tree where
  numbers := ν
  node := renumber ν
  memory := Option.map (renumber ν)
  table := u
  context := context

end Tree

namespace Table.Renumbers

variable {ν : Renumbering} {t u : Table} (h : t.Renumbers ν u)
include h

/-- Renumbering trees carries a parser that makes them over to the other table. -/
lemma faithful : (Tree.translation ν u).Faithful t Tree.context where
  table := h
  terminal token memory := by simp [Tree.translation, Tree.context, Tree.renumber]
  nonterminal r children memory := by
    simp [Tree.translation, Tree.context, Tree.renumber, Tree.renumberAll_eq_map]
  accept node memory := rfl
  reject rejection memory := rfl
  filter symbol text memory := rfl
  name symbol memory := rfl

/-- Renumbering all the states and rules keeps a table deterministic, and makes no table so. -/
lemma checkDeterministic_iff (hstate : Function.Surjective ν.state) :
    u.checkDeterministic = .ok () ↔ t.checkDeterministic = .ok () := by
  rw [checkDeterministic_eq_ok_iff, checkDeterministic_eq_ok_iff]
  constructor
  · intro hu n x rules haction
    refine hu (ν.state n) x (rules.map ν.rule) ?_
    rw [h.action?, haction]
    rfl
  · intro ht n x rules haction
    obtain ⟨m, rfl⟩ := hstate n
    rw [h.action?, Option.map_eq_some_iff] at haction
    obtain ⟨action, haction, heq⟩ := haction
    cases action with
    | reduceMulti set => exact ht m x set haction
    | _ => cases heq

/-- Parsers that make trees answer every call of every sequence in the same way. -/
lemma process_after {p p' : Parser (Option Tree) Tree} (hp : Parser.create t Tree.context none = .ok p)
    (hp' : Parser.create u Tree.context none = .ok p') (limit : Nat) (calls : List (Nat × Token)) (fuel : Nat)
    (token : Token) :
    (({ p' with limit } : Parser _ _).after calls).process fuel token =
      (Tree.translation ν u).step ((({ p with limit } : Parser _ _).after calls).process fuel token) := by
  obtain ⟨-, rfl⟩ := Parser.create_eq_ok hp
  obtain ⟨-, rfl⟩ := Parser.create_eq_ok hp'
  set q : Parser (Option Tree) Tree :=
    { table := t, context := Tree.context, memory := none, stack := Stack.root t.start, limit }
  have hstart : (Tree.translation ν u).carry q =
      { table := u, context := Tree.context, memory := none, stack := Stack.root u.start, limit } := by
    rw [h.start]
    rfl
  have hmatches := q.matches_after calls
  have hafter : (Tree.translation ν u).Faithful (q.after calls).table (q.after calls).context := by
    rw [hmatches.table, hmatches.context]
    exact h.faithful
  rw [← hstart, Translation.after_carry h.faithful, Translation.process_carry hafter]

end Table.Renumbers

/-! ### Reordered productions -/

/-- Two lists with the same members, each of which has one place, are the same up to the places. -/
lemma exists_perm_of_mem_iff {α : Type} {l l' : List α} (hl : l.Nodup) (hl' : l'.Nodup)
    (hmem : ∀ x, x ∈ l' ↔ x ∈ l) : ∃ ψ : Equiv.Perm Nat, ∀ k : Nat, l'[ψ k]? = l[k]? := by
  have hplace {u v : List α} (huv : ∀ x ∈ u, x ∈ v) {k : Nat} (hk : k < u.length) :
      ∃ m < v.length, v[m]? = u[k]? := by
    obtain ⟨m, hm⟩ := List.mem_iff_getElem?.1 (huv _ (List.getElem_mem hk))
    exact ⟨m, (List.getElem?_eq_some_iff.1 hm).1, hm.trans (List.getElem?_eq_getElem hk).symm⟩
  obtain ⟨ψ, hlt, hψ⟩ := exists_perm_of_matching (R := fun k m => l'[m]? = l[k]?)
    (fun k hk => hplace (fun x => (hmem x).2) hk)
    (fun m hm => (hplace (fun x => (hmem x).1) hm).imp fun k hk => ⟨hk.1, hk.2.symm⟩)
    (fun hm _ hkm hkm' => (List.getElem?_inj hm hl').1 (hkm.trans hkm'.symm))
    (fun hk _ hkm hkm' => (List.getElem?_inj hk hl).1 (hkm.symm.trans hkm'))
  refine ⟨ψ, fun k => ?_⟩
  by_cases hk : k < l.length
  · exact hψ k hk
  · have hk' : ¬ ψ k < l'.length := fun hlt' => hk ((hlt k).1 hlt')
    rw [List.getElem?_eq_none (not_lt.1 hk), List.getElem?_eq_none (not_lt.1 hk')]

namespace Grammar

/-- The grammars differ in the order and the repetitions of their productions at most. -/
structure Reordered (grammar grammar' : Grammar) : Prop where
  unknown : grammar'.unknown = grammar.unknown
  init : grammar'.init = grammar.init
  start : grammar'.start = grammar.start
  kinds : grammar'.kinds = grammar.kinds
  productions : ∀ p, p ∈ grammar'.productions ↔ p ∈ grammar.productions

namespace Reordered

variable {grammar grammar' : Grammar} (h : grammar.Reordered grammar')
include h

/-- The symbols have the same kinds. -/
lemma classification : grammar'.classification = grammar.classification := by
  rw [Grammar.classification, h.kinds]
  rfl

/-- The same symbols are set apart. -/
lemma roles : grammar'.roles = grammar.roles := by
  rw [Grammar.roles, h.unknown, h.init, h.start]
  rfl

/-- The order of the productions makes no defect and mends none. -/
lemma mem_defects_iff (d : Defect) : d ∈ grammar'.defects ↔ d ∈ grammar.defects := by
  rw [mem_defects, mem_defects]
  cases d with
  | reduceConflict state symbol rules => rfl
  | _ => simp only [HasDefect, h.classification, h.roles, h.init, h.productions]

/-- Both grammars have defects, or neither has. -/
lemma defects_eq_nil_iff : grammar'.defects = [] ↔ grammar.defects = [] := by
  simp only [List.eq_nil_iff_forall_not_mem, h.mem_defects_iff]

/-- The distinct productions are the same. -/
lemma mem_distinctProductions_iff (p : Symbol × Body) :
    p ∈ grammar'.distinctProductions ↔ p ∈ grammar.distinctProductions := by
  rw [mem_distinctProductions, mem_distinctProductions, h.init, h.start, h.productions]

/-- The distinct productions are the same up to their places, and the augmenting one keeps its place. -/
lemma exists_perm :
    ∃ ψ : Equiv.Perm Nat, ψ 0 = 0 ∧
      ∀ k : Nat, grammar'.distinctProductions[ψ k]? = grammar.distinctProductions[k]? := by
  have hnodup : grammar.distinctProductions.Nodup := nodup_eraseDups _
  have hnodup' : grammar'.distinctProductions.Nodup := nodup_eraseDups _
  obtain ⟨ψ, hψ⟩ := exists_perm_of_mem_iff hnodup hnodup' h.mem_distinctProductions_iff
  have hzero : grammar'.distinctProductions[ψ 0]? = grammar'.distinctProductions[0]? := by
    rw [hψ, getElem?_distinctProductions_zero, getElem?_distinctProductions_zero, h.init, h.start]
  have hlt : 0 < grammar'.distinctProductions.length :=
    (List.getElem?_eq_some_iff.1 getElem?_distinctProductions_zero).1
  exact ⟨ψ, ((List.getElem?_inj hlt hnodup').1 hzero.symm).symm, hψ⟩

end Reordered

/-- The rules of the second grammar are those of the first one under other numbers. -/
lemma rules_of_perm {grammar grammar' : Grammar} {ψ : Equiv.Perm Nat}
    (hψ : ∀ k : Nat, grammar'.distinctProductions[ψ k]? = grammar.distinctProductions[k]?) (φ : Nat → Nat)
    (k : Nat) : grammar'.rules[ψ k]? = grammar.rules[k]?.map (Rule.renumber ⟨φ, ψ⟩) := by
  unfold rules
  rw [List.getElem?_toArray, List.getElem?_toArray, List.getElem?_mapIdx, List.getElem?_mapIdx, hψ, Option.map_map]
  rfl

namespace Reordered

variable {grammar grammar' : Grammar} (h : grammar.Reordered grammar') {g g' : Augmented}
  (hg : grammar.augment = .ok g) (hg' : grammar'.augment = .ok g')
include h hg hg'

/-- The augmented grammars are isomorphic. -/
lemma isomorphic {ψ : Equiv.Perm Nat} (hzero : ψ 0 = 0)
    (hψ : ∀ k : Nat, grammar'.distinctProductions[ψ k]? = grammar.distinctProductions[k]?) :
    g.Isomorphic (Equiv.refl Symbol) ψ g' := by
  obtain ⟨-, -, -, hkinds, hrules, -⟩ := augment_eq_ok hg
  obtain ⟨-, -, -, hkinds', hrules', -⟩ := augment_eq_ok hg'
  refine ⟨fun k => ?_, fun x => ?_, rfl, rfl, hzero⟩
  · rw [hrules, hrules', rules_of_perm hψ id, Option.map_map]
    simp [Function.comp_def, Rule.renumber]
  · rw [hkinds, hkinds', h.classification]
    rfl

/-- The tables have the same cells and rules up to the numbers of states and rules. -/
lemma exists_renumbers {a a' : Automaton} {t t' : Table} (ha : a.Closed g) (ha' : a'.Closed g')
    (ht : t.Fits g a) (ht' : t'.Fits g' a') :
    ∃ φ ψ : Equiv.Perm Nat, φ 0 = 0 ∧ ψ 0 = 0 ∧ (∀ n, φ n < a'.states.size ↔ n < a.states.size) ∧
      t.Renumbers ⟨φ, ψ⟩ t' := by
  have wf := wellFormed_of_augment hg
  have wf' := wellFormed_of_augment hg'
  obtain ⟨-, -, -, -, hrules, -⟩ := augment_eq_ok hg
  obtain ⟨-, -, -, -, hrules', -⟩ := augment_eq_ok hg'
  obtain ⟨ψ, hzero, hψ⟩ := h.exists_perm
  obtain ⟨φ, haligned⟩ := Automaton.exists_aligned (h.isomorphic hg hg' hzero hψ) ha.explored ha'.explored
  have hstart : φ 0 = 0 := haligned.start ha.explored ha'.explored
  refine ⟨φ, ψ, hstart, hzero, haligned.size, ?_, fun n x => ?_, fun k => ?_⟩
  · rw [ht.start, ht'.start]
    exact hstart.symm
  · exact haligned.action?_eq wf wf' ha ha' ht ht' n x
  · rw [ht.rules, ht'.rules, hrules, hrules']
    exact rules_of_perm hψ φ k

end Reordered

/-- The order and the repetitions of the productions affect nothing but numbers.  Two grammars that differ in them
have the same defects, and with these both are refused.  Otherwise both have a table, and one permutation of the
states and one of the rules, which keep the first state and the augmenting rule, make the first table the second:
corresponding rules have the same symbols, and corresponding cells hold corresponding actions.  Parsers that make
trees are created for both tables or for neither, and they answer every call of every sequence in the same way,
with the same trees up to the numbers of their rules. -/
theorem reordered_tables_renumber {grammar grammar' : Grammar} (h : grammar.Reordered grammar') (verbose : Bool) :
    (∀ d, d ∈ grammar'.defects ↔ d ∈ grammar.defects) ∧
    (grammar.augment = .error (.invalid ⟨grammar.defects⟩) ∧
        grammar'.augment = .error (.invalid ⟨grammar'.defects⟩) ∨
      ∃ g g' c c', grammar.augment = .ok g ∧ grammar'.augment = .ok g' ∧
        grammar.construct verbose = .ok c ∧ grammar'.construct verbose = .ok c' ∧
        ∃ φ ψ : Equiv.Perm Nat, φ 0 = 0 ∧ ψ 0 = 0 ∧
          (∀ n, φ n < c'.automaton.states.size ↔ n < c.automaton.states.size) ∧
          c.table.Renumbers ⟨φ, ψ⟩ c'.table ∧
          ((∃ p, Parser.create c'.table Tree.context none = .ok p) ↔
            ∃ p, Parser.create c.table Tree.context none = .ok p) ∧
          ∀ p p', Parser.create c.table Tree.context none = .ok p →
            Parser.create c'.table Tree.context none = .ok p' →
            ∀ (limit : Nat) (calls : List (Nat × Token)) (fuel : Nat) (token : Token),
              (({ p' with limit } : Parser _ _).after calls).process fuel token =
                (Tree.translation ⟨φ, ψ⟩ c'.table).step ((({ p with limit } : Parser _ _).after calls).process
                  fuel token)) := by
  refine ⟨h.mem_defects_iff, ?_⟩
  by_cases hdefects : grammar.defects = []
  · right
    obtain ⟨g, hg⟩ := exists_augment_of_defects hdefects
    obtain ⟨g', hg'⟩ := exists_augment_of_defects (h.defects_eq_nil_iff.2 hdefects)
    obtain ⟨c, hc, -, hclosed, hfits⟩ := exists_construct_eq_ok hg verbose
    obtain ⟨c', hc', -, hclosed', hfits'⟩ := exists_construct_eq_ok hg' verbose
    obtain ⟨φ, ψ, hstart, hzero, hsize, hrenumbers⟩ := h.exists_renumbers hg hg' hclosed hclosed' hfits hfits'
    refine ⟨g, g', c, c', hg, hg', hc, hc', φ, ψ, hstart, hzero, hsize, hrenumbers, ?_, ?_⟩
    · rw [Parser.exists_create_iff, Parser.exists_create_iff, hrenumbers.checkDeterministic_iff φ.surjective]
    · intro p p' hp hp' limit calls fuel token
      exact hrenumbers.process_after hp hp' limit calls fuel token
  · left
    have hdefects' : grammar'.defects ≠ [] := fun hnil => hdefects (h.defects_eq_nil_iff.1 hnil)
    exact ⟨augment_of_defects hdefects, augment_of_defects hdefects'⟩

/-- Nested pairs with the productions repeated and the empty one first. -/
def nestedReversed : Grammar := { nested with productions := nested.productions.reverse ++ nested.productions }

/-- The tables of nested pairs in both orders differ, because the rules have other numbers, and they are the same up
to numbers.  One pair is accepted by both, with the same tree up to the numbers of its rules. -/
theorem reordered_tables_renumber_nested :
    nested.Reordered nestedReversed ∧
    ∃ c c' p p', nested.construct false = .ok c ∧ nestedReversed.construct false = .ok c' ∧
      c'.table ≠ c.table ∧ Parser.create c.table Tree.context none = .ok p ∧
      Parser.create c'.table Tree.context none = .ok p' ∧
      ∃ φ ψ : Equiv.Perm Nat, ψ 0 = 0 ∧ c.table.Renumbers ⟨φ, ψ⟩ c'.table ∧
        ((p.after [(9, ⟨⟨10⟩, "(", 0⟩), (9, ⟨⟨11⟩, ")", 1⟩)]).process 9 (Token.eof 2)).outcome =
          .progress .accepted ∧
        ((p'.after [(9, ⟨⟨10⟩, "(", 0⟩), (9, ⟨⟨11⟩, ")", 1⟩)]).process 9 (Token.eof 2)).outcome =
          .progress .accepted ∧
        ((p'.after [(9, ⟨⟨10⟩, "(", 0⟩), (9, ⟨⟨11⟩, ")", 1⟩)]).process 9 (Token.eof 2)).parser.memory =
          ((p.after [(9, ⟨⟨10⟩, "(", 0⟩), (9, ⟨⟨11⟩, ")", 1⟩)]).process 9 (Token.eof 2)).parser.memory.map
            (Tree.renumber ⟨φ, ψ⟩) := by
  have hreordered : nested.Reordered nestedReversed := ⟨rfl, rfl, rfl, rfl, fun p => by simp [nestedReversed]⟩
  obtain ⟨c, p, hc, hp, haccepted⟩ := exists_accepted_nested
  obtain ⟨-, hrefused | ⟨g, g', d, c', hg, hg', hd, hc', φ, ψ, -, hzero, -, hrenumbers, hcreate, hsteps⟩⟩ :=
    reordered_tables_renumber hreordered false
  · obtain ⟨g, hg⟩ := exists_augment_nested
    cases hg.symm.trans hrefused.1
  obtain rfl := Except.ok.inj (hc.symm.trans hd)
  obtain ⟨p', hp'⟩ := hcreate.2 ⟨p, hp⟩
  have hdiffer : (do
      let c ← (nested.construct false).toOption
      let c' ← (nestedReversed.construct false).toOption
      some (decide (c'.table = c.table))) = some false := by decide +kernel
  rw [hc, hc'] at hdiffer
  have hstep := hsteps p p' hp hp' p.limit [(9, ⟨⟨10⟩, "(", 0⟩), (9, ⟨⟨11⟩, ")", 1⟩)] 9 (Token.eof 2)
  obtain ⟨-, rfl⟩ := Parser.create_eq_ok hp
  obtain ⟨-, rfl⟩ := Parser.create_eq_ok hp'
  refine ⟨hreordered, c, c', _, _, hc, hc', ?_, hp, hp', φ, ψ, hzero, hrenumbers, haccepted, ?_, ?_⟩
  · simpa [Except.toOption] using hdiffer
  · have houtcome := congrArg Step.outcome hstep
    rw [Translation.step, haccepted] at houtcome
    exact houtcome
  · exact congrArg (fun step => step.parser.memory) hstep

end Grammar

end Lalr
