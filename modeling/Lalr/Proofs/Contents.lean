import Lalr.Proofs.Isomorphism
import Lalr.Proofs.Rows
import Lalr.Proofs.Termination

/-!
# What is in the cells

The items of a state are taken in the order in which they stand in it, but what they leave in a cell can be said
without that order.  For a terminal it is a function of the transition and of the set of rules that have a complete
item with the terminal among its lookaheads (`Automaton.content`): accepting comes before a shift, a shift before
reductions, and reductions by different rules are kept together.  The table of every grammar that passes its checks
has this content in its cells, and reading the same states with their items in another order gives the same table
(`Automaton.Rearranges.exists_tableOf_eq`).

The cells in which reductions are kept together are those that a deterministic parser cannot run.  They are reported
by state and symbol, each with all the rules that compete for it (`Table.Fits.mem_conflicts`).
-/

namespace Lalr

/-! ### The content of a cell -/

namespace Automaton

/-- The rules of the complete items of a state that have the symbol among their lookaheads. -/
def reducing (g : Augmented) (a : Automaton) (n : Nat) (x : Symbol) : RuleSet :=
  .ofList (((a.states[n]?.elim [] ItemSet.items).filter fun i =>
    g.rules[i.core.rule]?.any (fun r => i.core.dot == r.rhs.length) && i.lookaheads.contains x).map
      fun i => i.core.rule)

/-- The rules that compete for a reduction: all but the augmenting rule. -/
def competing (g : Augmented) (a : Automaton) (n : Nat) (x : Symbol) : RuleSet :=
  (a.reducing g n x).erase Augmented.augmentingRule

/-- What a terminal finds in a state. -/
def content (g : Augmented) (a : Automaton) (n : Nat) (x : Symbol) : Option Action :=
  if x = Symbol.eof ∧ Augmented.augmentingRule ∈ a.reducing g n x then some .accept
  else
    match a.goto? n x with
    | some m => some (.shift m)
    | none =>
      match (a.competing g n x).toList with
      | [] => none
      | [k] => some (.reduce k)
      | _ => some (.reduceMulti (a.competing g n x))

/-- Two or more rules compete for a terminal at which the state neither accepts nor shifts. -/
structure Contested (g : Augmented) (a : Automaton) (cell : Cell) : Prop where
  terminal : g.kinds.IsTerminal cell.symbol
  not_accept : ¬ (cell.symbol = Symbol.eof ∧ Augmented.augmentingRule ∈ a.reducing g cell.state cell.symbol)
  not_shift : a.goto? cell.state cell.symbol = none
  two_le : 2 ≤ (a.competing g cell.state cell.symbol).size

variable {g : Augmented} {a : Automaton} {n : Nat} {x : Symbol}

/-- The rules found are those of the complete items. -/
lemma mem_reducing {k : Nat} : k ∈ a.reducing g n x ↔ a.Reducible g n x k := by
  unfold reducing
  rw [Std.ExtTreeSet.mem_ofList, List.contains_iff_mem, List.mem_map]
  constructor
  · rintro ⟨i, hi, rfl⟩
    obtain ⟨hmem, hi⟩ := List.mem_filter.1 hi
    obtain ⟨hany, hx⟩ := Bool.and_eq_true_iff.1 hi
    obtain ⟨r, hr, hdot⟩ := (Option.any_eq_true _ _).1 hany
    cases hs : a.states[n]? with
    | none => simp [hs] at hmem
    | some s =>
      rw [hs] at hmem
      exact ⟨i.core, r, rfl, ⟨hr, beq_iff_eq.1 hdot⟩, s, hs, i, hmem, rfl, hx⟩
  · rintro ⟨c, r, rfl, ⟨hr, hdot⟩, s, hs, i, hi, rfl, hx⟩
    refine ⟨i, List.mem_filter.2 ⟨by rw [hs]; exact hi, ?_⟩, rfl⟩
    rw [hr, Option.any_some, hdot, beq_self_eq_true, Bool.true_and]
    exact hx

/-- The competing rules are the reducible ones but for the augmenting rule. -/
lemma mem_competing {k : Nat} : k ∈ a.competing g n x ↔ k ≠ 0 ∧ k ∈ a.reducing g n x := by
  unfold competing
  rw [Std.ExtTreeSet.mem_erase]
  simp [Augmented.augmentingRule, eq_comm (a := k)]

/-- The content of a cell is what the rules found make of it. -/
lemma settles_content (g : Augmented) (a : Automaton) (n : Nat) (x : Symbol) :
    Resolution.Settles (a.goto? n x) (x = Symbol.eof) (a.reducing g n x).toList (a.content g n x) := by
  have hcompeting {k : Nat} : k ∈ (a.competing g n x).toList ↔ k ≠ 0 ∧ k ∈ (a.reducing g n x).toList := by
    rw [Std.ExtTreeSet.mem_toList, mem_competing, Std.ExtTreeSet.mem_toList]
  unfold content
  split_ifs with haccept
  · exact ⟨haccept.1, Std.ExtTreeSet.mem_toList.2 haccept.2⟩
  · have hzero : x = Symbol.eof → 0 ∉ (a.reducing g n x).toList := fun hend hmem =>
      haccept ⟨hend, Std.ExtTreeSet.mem_toList.1 hmem⟩
    cases hgoto : a.goto? n x with
    | some m => exact ⟨rfl, hzero⟩
    | none =>
      rcases hlist : (a.competing g n x).toList with _ | ⟨k, _ | ⟨l, rest⟩⟩
      · have hnone {k : Nat} (hk : k ∈ (a.reducing g n x).toList) : k = 0 := by
          by_contra hne
          have hmem := hcompeting.2 ⟨hne, hk⟩
          rw [hlist] at hmem
          cases hmem
        exact ⟨rfl, fun k hk => ⟨hnone hk, fun hend => hzero hend (hnone hk ▸ hk)⟩⟩
      · obtain ⟨hk, hmem⟩ := hcompeting.1 (hlist ▸ List.mem_cons_self)
        refine ⟨rfl, hzero, hk, hmem, fun l hl => ?_⟩
        by_cases hl0 : l = 0
        · exact Or.inl hl0
        · have hmem' := hcompeting.2 ⟨hl0, hl⟩
          rw [hlist] at hmem'
          exact Or.inr (List.mem_singleton.1 hmem')
      · have hdistinct := Std.ExtTreeSet.distinct_toList (t := a.competing g n x)
        rw [hlist] at hdistinct
        have hne : k ≠ l := by simpa using List.rel_of_pairwise_cons hdistinct List.mem_cons_self
        obtain ⟨hk, hkmem⟩ := hcompeting.1 (hlist ▸ List.mem_cons_self)
        obtain ⟨hl, hlmem⟩ := hcompeting.1 (hlist ▸ List.mem_cons_of_mem k List.mem_cons_self)
        refine ⟨rfl, hzero, fun j => ?_, k, hkmem, l, hlmem, hne, hk, hl⟩
        rw [mem_competing, Std.ExtTreeSet.mem_toList]

/-- A contested cell is one that holds the competing rules. -/
lemma content_eq_reduceMulti {set : RuleSet} (hx : g.kinds.IsTerminal x) :
    a.content g n x = some (.reduceMulti set) ↔ a.Contested g ⟨n, x⟩ ∧ set = a.competing g n x := by
  unfold content
  split_ifs with haccept
  · exact ⟨nofun, fun h => absurd haccept h.1.not_accept⟩
  · cases hgoto : a.goto? n x with
    | some m => exact ⟨nofun, fun h => absurd (hgoto.symm.trans h.1.not_shift) nofun⟩
    | none =>
      have hsize := Std.ExtTreeSet.length_toList (t := a.competing g n x)
      rcases hlist : (a.competing g n x).toList with _ | ⟨k, _ | ⟨l, rest⟩⟩ <;> rw [hlist] at hsize
      · exact ⟨nofun, fun h => absurd h.1.two_le (by simp [← hsize])⟩
      · exact ⟨nofun, fun h => absurd h.1.two_le (by simp [← hsize])⟩
      · have htwo : 2 ≤ (a.competing g n x).size := by
          rw [← hsize]
          simp
        constructor
        · intro h
          exact ⟨⟨hx, haccept, hgoto, htwo⟩, (Action.reduceMulti.inj (Option.some.inj h)).symm⟩
        · rintro ⟨-, rfl⟩
          rfl

end Automaton

/-! ### The cells of a table -/

/-- Cells are in ascending order of the states, and in each state in ascending order of the symbols. -/
lemma Cell.lt_of_compare {a b : Cell} (h : compare a b = .lt) :
    a.state < b.state ∨ a.state = b.state ∧ a.symbol.id < b.symbol.id := by
  have hlex : (compare a.state b.state).then (compare a.symbol b.symbol) = .lt := h
  rcases Ordering.then_eq_lt.1 hlex with hlt | ⟨heq, -⟩
  · exact Or.inl (Nat.compare_eq_lt.1 hlt)
  · have hstate := Nat.compare_eq_eq.1 heq
    exact Or.inr ⟨hstate, Cell.id_lt_of_compare h hstate⟩

/-- A conflict is a cell with several rules. -/
lemma Table.mem_conflicts {t : Table} {cell : Cell} {set : RuleSet} :
    (cell, set) ∈ t.conflicts ↔ t.action? cell.state cell.symbol = some (.reduceMulti set) := by
  unfold conflicts action?
  rw [List.mem_filterMap, ← Std.ExtTreeMap.mem_toList_iff_getElem?_eq_some]
  constructor
  · rintro ⟨⟨cell', action⟩, hmem, heq⟩
    cases action with
    | reduceMulti set' =>
      obtain ⟨rfl, rfl⟩ := Prod.mk.inj (Option.some.inj heq)
      exact hmem
    | _ => cases heq
  · exact fun hmem => ⟨_, hmem, rfl⟩

/-- The conflicts are in ascending order of their cells. -/
lemma Table.pairwise_conflicts (t : Table) :
    (t.conflicts.map Prod.fst).Pairwise fun a b =>
      a.state < b.state ∨ a.state = b.state ∧ a.symbol.id < b.symbol.id := by
  unfold conflicts
  rw [List.pairwise_map]
  refine t.cells.ordered_keys_toList.filterMap _ ?_
  rintro ⟨cell, action⟩ ⟨cell', action'⟩ hlt ⟨_, set⟩ heq ⟨_, set'⟩ heq'
  cases action with
  | reduceMulti rules =>
    cases action' with
    | reduceMulti rules' =>
      obtain ⟨rfl, -⟩ := Prod.mk.inj (Option.some.inj heq)
      obtain ⟨rfl, -⟩ := Prod.mk.inj (Option.some.inj heq')
      exact Cell.lt_of_compare hlt
    | _ => cases heq'
  | _ => cases heq

namespace Table.Fits

variable {g : Augmented} {a : Automaton} {t : Table} (h : t.Fits g a)
include h

/-- The action on a terminal is the content of its cell. -/
lemma action?_of_isTerminal (ha : a.Explored g) {n : Nat} {x : Symbol} (hx : g.kinds.IsTerminal x) :
    t.action? n x = a.content g n x := by
  have hsettles := Automaton.settles_content g a n x
  by_cases hn : n < a.states.size
  · obtain ⟨rules, hrules, hcell⟩ := (h.holds hn (Augmented.mem_kinds_of_isTerminal hx)).2 hx
    refine hcell.unique (fun k => ?_) hsettles
    rw [hrules, Std.ExtTreeSet.mem_toList, Automaton.mem_reducing]
  · -- outside the automaton there is neither a transition nor an item
    have hempty : Resolution.Settles (a.goto? n x) (x = Symbol.eof) (a.reducing g n x).toList none := by
      refine ⟨ha.goto?_eq_none hn, fun k hk => ?_⟩
      obtain ⟨c, r, -, -, s, hs, -⟩ := Automaton.mem_reducing.1 (Std.ExtTreeSet.mem_toList.1 hk)
      exact absurd (Array.getElem?_eq_some_iff.1 hs).1 hn
    rw [h.action?_eq_none fun hcell => hn hcell.1]
    exact hempty.unique (fun _ => Iff.rfl) hsettles

/-- Two tables that fit the same automaton are the same. -/
lemma unique {t' : Table} (h' : t'.Fits g a) : t = t' := by
  refine Table.eq_of_action? (h.start.trans h'.start.symm) (fun n x => ?_) (h.rules.trans h'.rules.symm)
  by_cases hcell : n < a.states.size ∧ x ∈ g.kinds
  · exact (h.holds hcell.1 hcell.2).unique hcell.2 (h'.holds hcell.1 hcell.2)
  · rw [h.action?_eq_none hcell, h'.action?_eq_none hcell]

/-- The conflicts are the contested cells, each with all the rules that compete for it. -/
lemma mem_conflicts (ha : a.Explored g) {cell : Cell} {set : RuleSet} :
    (cell, set) ∈ t.conflicts ↔ a.Contested g cell ∧ set = a.competing g cell.state cell.symbol := by
  rw [Table.mem_conflicts]
  constructor
  · intro haction
    rcases h.action?_cases haction with ⟨-, m, -, heq⟩ | ⟨hx, -⟩
    · cases heq
    · rw [h.action?_of_isTerminal ha hx] at haction
      exact (Automaton.content_eq_reduceMulti hx).1 haction
  · intro hcell
    rw [h.action?_of_isTerminal ha hcell.1.terminal]
    exact (Automaton.content_eq_reduceMulti hcell.1.terminal).2 hcell

/-- The check for determinism reports the contested cells in order. -/
lemma exists_checkDeterministic_eq (ha : a.Explored g) :
    ∃ contested : List Cell,
      (contested.Pairwise fun a b => a.state < b.state ∨ a.state = b.state ∧ a.symbol.id < b.symbol.id) ∧
      (∀ cell, cell ∈ contested ↔ a.Contested g cell) ∧
      t.checkDeterministic =
        if contested = [] then .ok ()
        else .error ⟨contested.map fun cell =>
          .reduceConflict cell.state cell.symbol (a.competing g cell.state cell.symbol).toList⟩ := by
  have hset : t.conflicts.map (fun c => Defect.reduceConflict c.1.state c.1.symbol c.2.toList) =
      (t.conflicts.map Prod.fst).map fun cell =>
        .reduceConflict cell.state cell.symbol (a.competing g cell.state cell.symbol).toList := by
    rw [List.map_map]
    refine List.map_congr_left ?_
    rintro ⟨cell, set⟩ hmem
    rw [((h.mem_conflicts ha).1 hmem).2]
    rfl
  refine ⟨t.conflicts.map Prod.fst, t.pairwise_conflicts, fun cell => ?_, ?_⟩
  · rw [List.mem_map]
    constructor
    · rintro ⟨⟨_, set⟩, hmem, rfl⟩
      exact ((h.mem_conflicts ha).1 hmem).1
    · exact fun hcell => ⟨_, (h.mem_conflicts ha).2 ⟨hcell, rfl⟩, rfl⟩
  · rw [checkDeterministic, hset, GrammarError.check]
    simp only [List.isEmpty_iff, List.map_eq_nil_iff]

end Table.Fits

/-! ### Items in another order -/

namespace Automaton

/-- The same states and transitions, with the items of each state in another order. -/
structure Rearranges (a b : Automaton) : Prop where
  transitions : b.transitions = a.transitions
  states : ∀ n : Nat, Option.Rel (fun s t : ItemSet => s.items.Perm t.items) a.states[n]? b.states[n]?

namespace Rearranges

variable {g : Augmented} {a b : Automaton} (h : a.Rearranges b)
include h

/-- What a state has does not depend on the order of its items. -/
lemma exists_iff {P : ItemSet → Prop} (hP : ∀ {s t : ItemSet}, s.items.Perm t.items → (P s ↔ P t)) (n : Nat) :
    (∃ s, b.states[n]? = some s ∧ P s) ↔ ∃ s, a.states[n]? = some s ∧ P s := by
  have hrel := h.states n
  generalize a.states[n]? = s at hrel ⊢
  generalize b.states[n]? = t at hrel ⊢
  cases hrel with
  | none => simp
  | some hperm => simp [hP hperm]

/-- The cores of the kernels are the same. -/
lemma kernelAt_eq : KernelAt b.states = KernelAt a.states := by
  funext n c
  refine propext (h.exists_iff (fun hperm => ?_) n)
  simp only [ItemSet.HasKernel, hperm.mem_iff]

/-- The cores are the same. -/
lemma hasAt_eq : HasAt b.states = HasAt a.states := by
  funext n c
  refine propext (h.exists_iff (fun hperm => ?_) n)
  simp only [ItemSet.Has, hperm.mem_iff]

/-- The lookaheads are the same. -/
lemma looksAt_eq : LooksAt b.states = LooksAt a.states := by
  funext n c x
  refine propext (h.exists_iff (fun hperm => ?_) n)
  simp only [ItemSet.Looks, hperm.mem_iff]

/-- There are as many states. -/
lemma size_eq : b.states.size = a.states.size := by
  have hsome (n : Nat) : n < b.states.size ↔ n < a.states.size := by
    have hiff := h.exists_iff (P := fun _ => True) (fun _ => Iff.rfl) n
    simpa [Array.getElem?_eq_some_iff] using hiff
  exact Nat.le_antisymm (Nat.not_lt.1 fun hlt => Nat.lt_irrefl _ ((hsome _).1 hlt))
    (Nat.not_lt.1 fun hlt => Nat.lt_irrefl _ ((hsome _).2 hlt))

/-- The transitions are the same. -/
lemma goto?_eq : b.goto? = a.goto? := by
  funext n x
  rw [goto?, goto?, h.transitions]

/-- A closed automaton stays closed. -/
lemma closed (ha : a.Closed g) : b.Closed g := by
  have hcarried (site : Site) (x : Symbol) : b.Carried g site x ↔ a.Carried g site x :=
    ⟨fun hx => hx.of_same h.kernelAt_eq.symm h.transitions.symm, fun hx => hx.of_same h.kernelAt_eq h.transitions⟩
  refine ⟨ha.explored.of_same h.kernelAt_eq h.transitions h.size_eq, fun t ht => ?_, ?_, ?_⟩
  · obtain ⟨n, hn⟩ := Array.mem_iff_getElem?.1 ht
    have hiff := h.exists_iff (P := ItemSet.Distinct) (fun hperm => (hperm.map Item.core).nodup_iff) n
    obtain ⟨s, hs, hdistinct⟩ : ∃ s, b.states[n]? = some s ∧ s.Distinct := by
      have hlt := h.size_eq ▸ (Array.getElem?_eq_some_iff.1 hn).1
      exact hiff.2 ⟨_, Array.getElem?_eq_getElem hlt, ha.distinct _ (Array.getElem_mem hlt)⟩
    obtain rfl := Option.some.inj (hn.symm.trans hs)
    exact hdistinct
  · rw [h.hasAt_eq, h.kernelAt_eq, h.looksAt_eq]
    exact ha.hasAt_iff
  · rw [h.looksAt_eq, h.kernelAt_eq]
    simp only [hcarried]
    exact ha.looksAt_iff_closes

/-- A table that fits goes on fitting. -/
lemma fits {t : Table} (ht : t.Fits g b) : t.Fits g a := by
  refine ⟨ht.start, ht.rules, fun hn hx => ?_, fun haction => h.size_eq ▸ ht.lt_of_isSome haction⟩
  have hholds := ht.holds (h.size_eq.symm ▸ hn) hx
  simpa only [Holds, Reducible, h.goto?_eq, h.looksAt_eq] using hholds

/-- The states with their items in another order give the same table. -/
theorem exists_tableOf_eq (ha : a.Closed g) {t : Table} (ht : t.Fits g a) :
    ∃ resolved, g.resolveAll b = .ok resolved ∧ g.tableOf resolved = t := by
  obtain ⟨resolved, hresolved, hholds, hunique, hexists⟩ := (h.closed ha).exists_resolveAll_eq_ok
  exact ⟨resolved, hresolved, (h.fits (Augmented.fits_tableOf hholds hunique hexists)).unique ht⟩

end Rearranges

end Automaton

/-! ### The table of a grammar -/

namespace Grammar

/-- The table of a grammar that passes its checks has no action for a symbol without a kind, gotos along the
transitions on nonterminals, and on a terminal the content of the cell.  It is also the table of the same states
with their items in any other order.  The check for determinism fails exactly when a cell is contested, and reports
the contested cells by state and symbol with all the rules that compete for them. -/
theorem construct_fills_cells {grammar : Grammar} {g : Augmented} (haugment : grammar.augment = .ok g)
    (verbose : Bool) :
    ∃ c, grammar.construct verbose = .ok c ∧
      (∀ n x, x ∉ g.kinds → c.table.action? n x = none) ∧
      (∀ n x, g.kinds.IsNonterminal x → c.table.action? n x = (c.automaton.goto? n x).map Action.goto) ∧
      (∀ n x, g.kinds.IsTerminal x → c.table.action? n x = c.automaton.content g n x) ∧
      (∀ b, c.automaton.Rearranges b →
        ∃ resolved, g.resolveAll b = .ok resolved ∧ g.tableOf resolved = c.table) ∧
      ∃ contested : List Cell,
        (contested.Pairwise fun a b => a.state < b.state ∨ a.state = b.state ∧ a.symbol.id < b.symbol.id) ∧
        (∀ cell, cell ∈ contested ↔ c.automaton.Contested g cell) ∧
        c.table.checkDeterministic =
          if contested = [] then .ok ()
          else .error ⟨contested.map fun cell =>
            .reduceConflict cell.state cell.symbol (c.automaton.competing g cell.state cell.symbol).toList⟩ := by
  obtain ⟨c, hc, -, hclosed, hfits⟩ := exists_construct_eq_ok haugment verbose
  refine ⟨c, hc, fun n x hx => ?_, fun n x hx => ?_, fun n x hx => ?_, fun b hb => ?_, ?_⟩
  · exact hfits.action?_eq_none fun hcell => hx hcell.2
  · exact hfits.action?_of_isNonterminal hclosed.explored hx
  · exact hfits.action?_of_isTerminal hclosed.explored hx
  · exact hb.exists_tableOf_eq hclosed hfits
  · exact hfits.exists_checkDeterministic_eq hclosed.explored

/-- Two rules for the same token, in the grammar `S ::= A | B`, `A ::= a`, `B ::= a`, with the symbols `S = 1`,
`A = 2`, `B = 3` and `a = 10`. -/
def disputed : Grammar :=
  ofProductions [(⟨1⟩, [⟨2⟩]), (⟨1⟩, [⟨3⟩]), (⟨2⟩, [⟨10⟩]), (⟨3⟩, [⟨10⟩])]

/-- After the token both rules compete at the end of input, and the check for determinism names them. -/
theorem construct_fills_cells_disputed :
    ∃ g c, disputed.augment = .ok g ∧ disputed.construct false = .ok c ∧
      c.table.action? 4 Symbol.eof = some (.reduceMulti {3, 4}) ∧
      ∃ e, c.table.checkDeterministic = .error e ∧ .reduceConflict 4 Symbol.eof [3, 4] ∈ e.defects := by
  have hrun : (do
      let g ← disputed.augment.toOption
      let c ← (disputed.construct false).toOption
      some (g.kinds[Symbol.eof]?, c.automaton.content g 4 Symbol.eof,
        (c.automaton.competing g 4 Symbol.eof).toList)) =
      some (some .terminal, some (.reduceMulti {3, 4}), [3, 4]) := by decide +kernel
  obtain ⟨g, hg, hrun⟩ := Option.bind_eq_some_iff.1 hrun
  obtain ⟨c, hc, hrun⟩ := Option.bind_eq_some_iff.1 hrun
  obtain ⟨hkind, hcell⟩ := Prod.mk.inj (Option.some.inj hrun)
  obtain ⟨hcontent, hrules⟩ := Prod.mk.inj hcell
  rw [toOption_eq_some_iff] at hg hc
  obtain ⟨c', hc', -, -, hterminal, -, contested, -, hmem, hcheck⟩ := construct_fills_cells hg false
  obtain rfl := Except.ok.inj (hc.symm.trans hc')
  obtain ⟨hcontested, -⟩ := (Automaton.content_eq_reduceMulti hkind).1 hcontent
  have hcell := (hmem _).2 hcontested
  refine ⟨g, c, hg, hc, (hterminal _ _ hkind).trans hcontent, _, hcheck.trans (if_neg (List.ne_nil_of_mem hcell)), ?_⟩
  refine List.mem_map.2 ⟨_, hcell, ?_⟩
  rw [hrules]

end Grammar

end Lalr
