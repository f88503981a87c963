import Lalr.Proofs.Equivariance
import Lalr.Proofs.Halting
import Lalr.Proofs.Isomorphism
import Lalr.Proofs.Saturation
import Mathlib.Data.Fintype.Option
import Mathlib.Logic.Equiv.Fintype

/-!
# The names of the symbols

A symbol is a number, but which number it is means nothing, the end of input apart.  `Grammar.rename` gives the
symbols of a grammar other numbers.

Where the numbers are given by a permutation, everything is renamed: the distinct productions, the rules, the kinds,
the defects.  The states of both automata are found in the same order (`Augmented.Renamed.automaton`), so that
corresponding states have the same number, and the tables of isomorphic grammars have the same cells
(`Automaton.Aligned.action?_eq`).  A map that is injective on the symbols of a grammar and avoids the placeholder
agrees with such a permutation on them (`Grammar.exists_perm_of_injOn`).
-/

namespace Lalr

/-! ### Grammars and tables with other symbols -/

/-- The grammar with other symbols. -/
def Grammar.rename (f : Symbol → Symbol) (grammar : Grammar) : Grammar where
  unknown := f grammar.unknown
  init := f grammar.init
  start := f grammar.start
  productions := grammar.productions.map (Prod.map f (List.map f))
  kinds := renameKeys f grammar.kinds

/-- The cell of the same state under another symbol. -/
def Cell.rename (f : Symbol → Symbol) (cell : Cell) : Cell := { cell with symbol := f cell.symbol }

/-- The table with its cells moved to other symbols. -/
def Table.rename (f : Symbol → Symbol) (t : Table) : Table where
  start := t.start
  cells := renameKeys (Cell.rename f) t.cells
  rules := t.rules.map (Rule.rename f)

/-- The defect of other symbols. -/
def Defect.rename (f : Symbol → Symbol) : Defect → Defect
  | .wrongKind role s kind => .wrongKind role (f s) kind
  | .undefinedSymbol s lhs => .undefinedSymbol (f s) (f lhs)
  | .noRules s => .noRules (f s)
  | .initHasRules s => .initHasRules (f s)
  | .terminalHasRules s => .terminalHasRules (f s)
  | .reservedId s => .reservedId (f s)
  | .reduceConflict n s rules => .reduceConflict n (f s) rules

/-- Every defect is one of other symbols. -/
lemma Defect.rename_rename_symm (π : Equiv.Perm Symbol) (d : Defect) : (d.rename π.symm).rename π = d := by
  cases d <;> simp [rename]

/-- An action is found under the new symbol. -/
lemma Table.action?_rename (π : Equiv.Perm Symbol) (t : Table) (n : Nat) (x : Symbol) :
    (t.rename π).action? n (π x) = t.action? n x := by
  have hcell : Function.Injective (Cell.rename π) := by
    rintro ⟨n, x⟩ ⟨m, y⟩ heq
    obtain ⟨hn, hx⟩ := Cell.mk.inj heq
    exact congr (congrArg Cell.mk hn) (π.injective hx)
  exact getElem?_renameKeys hcell t.cells ⟨n, x⟩

namespace Grammar

section

variable {π : Equiv.Perm Symbol} {grammar : Grammar}

/-- The distinct productions are renamed. -/
lemma distinctProductions_rename :
    (grammar.rename π).distinctProductions = grammar.distinctProductions.map (Prod.map π (List.map π)) := by
  have hinjective : Function.Injective (Prod.map π (List.map π)) :=
    π.injective.prodMap (List.map_injective_iff.2 π.injective)
  have hinit : (fun p : Symbol × Body => p.1 != π grammar.init) ∘ Prod.map π (List.map π) =
      fun p => p.1 != grammar.init := by
    funext p
    simp [bne]
  unfold distinctProductions
  rw [← eraseDups_map hinjective, List.map_cons]
  unfold rename
  rw [List.filter_map, hinit]
  rfl

/-- The rules are renamed and keep their numbers. -/
lemma rules_rename : (grammar.rename π).rules = grammar.rules.map (Rule.rename π) := by
  refine Array.ext_getElem? fun n => ?_
  unfold rules
  rw [distinctProductions_rename, List.getElem?_toArray, List.getElem?_mapIdx, List.getElem?_map,
    Array.getElem?_map, List.getElem?_toArray, List.getElem?_mapIdx, Option.map_map, Option.map_map]
  rfl

/-- A renamed symbol has the productions of the symbol. -/
lemma exists_production_rename {A : Symbol} {P : Body → Prop} :
    (∃ ω, (π A, ω) ∈ (grammar.rename π).productions ∧ P ω) ↔
      ∃ ω, (A, ω) ∈ grammar.productions ∧ P (ω.map π) := by
  constructor
  · rintro ⟨ω, hω, hP⟩
    obtain ⟨⟨B, ω'⟩, hp, heq⟩ := List.mem_map.1 hω
    obtain ⟨hA, rfl⟩ := Prod.mk.inj heq
    rw [π.injective hA] at hp
    exact ⟨ω', hp, hP⟩
  · rintro ⟨ω, hω, hP⟩
    exact ⟨ω.map π, List.mem_map.2 ⟨_, hω, rfl⟩, hP⟩

variable (heof : π Symbol.eof = Symbol.eof)
include heof

/-- The kinds are those of the renamed symbols. -/
lemma classification_rename : (grammar.rename π).classification = renameKeys π grammar.classification := by
  unfold classification
  rw [renameKeys_insertIfNew π.injective π.surjective, heof]
  rfl

/-- Symbols keep their kinds. -/
lemma getElem?_classification_rename (x : Symbol) :
    (grammar.rename π).classification[π x]? = grammar.classification[x]? := by
  rw [classification_rename heof, getElem?_renameKeys π.injective]

/-- The rules of a renamed symbol have the numbers of the rules of the symbol. -/
lemma heads_rename (x : Symbol) : (grammar.rename π).heads[π x]? = grammar.heads[x]? := by
  have hrules : ((grammar.rename π).rules.toList.filter fun r => r.lhs == π x).map Rule.index =
      (grammar.rules.toList.filter fun r => r.lhs == x).map Rule.index := by
    rw [rules_rename, Array.toList_map, List.filter_map, List.map_map]
    simp only [Function.comp_def, Rule.rename, π.injective.beq_eq]
  unfold heads
  rw [Std.ExtTreeMap.getElem?_map, Std.ExtTreeMap.getElem?_map, getElem?_classification_rename heof, hrules]

/-- The augmented grammars differ in their symbols. -/
lemma renamed {g g' : Augmented} (hg : grammar.augment = .ok g) (hg' : (grammar.rename π).augment = .ok g') :
    g.Renamed π g' := by
  obtain ⟨-, -, -, hkinds, hrules, hheads, -⟩ := augment_eq_ok hg
  obtain ⟨-, -, -, hkinds', hrules', hheads', -⟩ := augment_eq_ok hg'
  refine ⟨?_, ?_, fun x => ?_⟩
  · rw [hrules, hrules', rules_rename]
  · rw [hkinds, hkinds', classification_rename heof]
  · unfold Augmented.rulesOf
    rw [Std.ExtTreeMap.getD_eq_getD_getElem?, Std.ExtTreeMap.getD_eq_getD_getElem?, hheads, hheads',
      heads_rename heof]

variable (hplaceholder : π Symbol.placeholder = Symbol.placeholder)
include hplaceholder

/-- The defects of the renamed grammar are the renamed defects. -/
lemma hasDefect_rename {d : Defect} : (grammar.rename π).HasDefect (d.rename π) ↔ grammar.HasDefect d := by
  have hmem {s : Symbol} : π s ∈ (grammar.rename π).classification ↔ s ∈ grammar.classification := by
    rw [classification_rename heof, mem_renameKeys π.injective]
  have hkind (s : Symbol) : (grammar.rename π).classification[π s]? = grammar.classification[s]? :=
    getElem?_classification_rename heof s
  have hinit {s : Symbol} : π s = (grammar.rename π).init ↔ s = grammar.init := π.injective.eq_iff
  have hproduction (s : Symbol) : (∃ ω, (π s, ω) ∈ (grammar.rename π).productions) ↔
      ∃ ω, (s, ω) ∈ grammar.productions := by
    have htrue : (∃ ω, (π s, ω) ∈ (grammar.rename π).productions ∧ True) ↔
        ∃ ω, (s, ω) ∈ grammar.productions ∧ True := exists_production_rename
    simpa only [and_true] using htrue
  cases d with
  | wrongKind role s kind =>
    have hroles : (grammar.rename π).roles = grammar.roles.map (Prod.map id (Prod.map π id)) := by
      simp [roles, rename, heof]
    have hinjective : Function.Injective (Prod.map id (Prod.map π id) : Role × Symbol × Kind → _) :=
      Function.injective_id.prodMap (π.injective.prodMap Function.injective_id)
    have hrole : (role, π s, kind) ∈ (grammar.rename π).roles ↔ (role, s, kind) ∈ grammar.roles := by
      rw [hroles]
      exact List.mem_map_of_injective hinjective (a := (role, s, kind))
    simp only [Defect.rename, HasDefect, hrole, hkind]
  | reservedId s =>
    have hs : π s = Symbol.placeholder ↔ s = Symbol.placeholder := by
      rw [← hplaceholder, π.injective.eq_iff, hplaceholder]
    simp only [Defect.rename, HasDefect, hs, hmem]
  | initHasRules s => simp only [Defect.rename, HasDefect, hinit, hproduction]
  | terminalHasRules s => simp only [Defect.rename, HasDefect, ne_eq, hinit, hkind, hproduction]
  | undefinedSymbol s lhs =>
    simp only [Defect.rename, HasDefect, ne_eq, hinit, hmem, exists_production_rename, ← List.map_cons,
      List.mem_map_of_injective π.injective]
  | noRules s => simp only [Defect.rename, HasDefect, ne_eq, hinit, hkind, ← not_exists, hproduction]
  | reduceConflict n s rules => rfl

/-- Renaming makes no defect. -/
lemma defects_rename (hdefects : grammar.defects = []) : (grammar.rename π).defects = [] := by
  rw [defects_eq_nil] at hdefects ⊢
  intro d hd
  rw [← d.rename_rename_symm π, hasDefect_rename heof hplaceholder] at hd
  exact hdefects _ hd

end

end Grammar

/-! ### Automata with the same numbers -/

/-- A renamed grammar is isomorphic, with the same numbers for the rules. -/
lemma Augmented.Renamed.isomorphic {π : Equiv.Perm Symbol} {g g' : Augmented} (h : g.Renamed π g')
    (heof : π Symbol.eof = Symbol.eof) (hplaceholder : π Symbol.placeholder = Symbol.placeholder) :
    g.Isomorphic π (Equiv.refl Nat) g' where
  rule k := by
    rw [h.rules, Array.getElem?_map, Option.map_map]
    rfl
  kind := h.kind
  eof := heof
  placeholder := hplaceholder
  augmenting := rfl

namespace Automaton

variable {π : Equiv.Perm Symbol} {g g' : Augmented} {a a' : Automaton}

/-- Where corresponding symbols lead to the same state, the automata have the same states with the same numbers. -/
lemma aligned_of_goto? (h : g.Isomorphic π (Equiv.refl Nat) g') (ha : a.Explored g) (ha' : a'.Explored g')
    (hgoto : ∀ n x, a'.goto? n (π x) = a.goto? n x) :
    Aligned π (Equiv.refl Nat) (Equiv.refl Nat) g g' a a' := by
  obtain ⟨φ, haligned⟩ := exists_aligned h ha ha'
  -- a state is found from an earlier one, on a symbol that leads to the same number in both automata
  have hφ {n : Nat} (hn : n < a.states.size) : φ n = n := by
    induction n using Nat.strong_induction_on with
    | _ n ih =>
      by_cases hzero : n = 0
      · rw [hzero]
        exact haligned.start ha ha'
      · obtain ⟨k, x, hk, hx⟩ := ha.entered (Nat.pos_of_ne_zero hzero) hn
        have hx' := haligned.goto?_eq_some ha ha' hx
        rw [ih k hk (hk.trans hn), hgoto, hx] at hx'
        exact (Option.some.inj hx').symm
  have hsize (n : Nat) : n < a'.states.size ↔ n < a.states.size := by
    constructor
    · intro hn
      have hlt : φ.symm n < a.states.size := by
        rw [← haligned.size, φ.apply_symm_apply]
        exact hn
      have heq := hφ hlt
      rw [φ.apply_symm_apply] at heq
      rw [heq]
      exact hlt
    · intro hn
      have hlt := (haligned.size n).2 hn
      rwa [hφ hn] at hlt
  refine aligned_of_lt h hsize fun n hn c => ?_
  have hkernel := haligned.kernel n c
  rwa [hφ hn] at hkernel

end Automaton

/-- Closing the states keeps the transitions that the exploration has found. -/
lemma Augmented.exists_goto?_of_construct {g : Augmented} {c : Construction} {verbose : Bool}
    (hc : g.construct verbose = .ok c) :
    ∃ bare, g.automaton = .ok bare ∧ c.automaton.goto? = bare.goto? := by
  unfold construct at hc
  obtain ⟨bare, hbare, hc⟩ := bind_eq_ok.1 hc
  obtain ⟨transfers, -, hc⟩ := bind_eq_ok.1 hc
  obtain ⟨⟨lookaheads, passes⟩, -, hc⟩ := bind_eq_ok.1 hc
  obtain ⟨closed, hclosed, hc⟩ := bind_eq_ok.1 hc
  obtain ⟨resolved, -, hc⟩ := bind_eq_ok.1 hc
  obtain ⟨states, -, hstates⟩ := bind_eq_ok.1 hclosed
  obtain rfl := Except.ok.inj hstates
  obtain rfl := Except.ok.inj hc
  exact ⟨bare, hbare, rfl⟩

namespace Grammar

/-- The construction of a grammar has the transitions that the exploration has found. -/
lemma exists_goto?_of_construct {grammar : Grammar} {g : Augmented} (hg : grammar.augment = .ok g)
    {c : Construction} {verbose : Bool} (hc : grammar.construct verbose = .ok c) :
    ∃ bare, g.automaton = .ok bare ∧ c.automaton.goto? = bare.goto? := by
  unfold construct at hc
  obtain ⟨g', hg', hc⟩ := bind_eq_ok.1 hc
  obtain rfl := Except.ok.inj (hg.symm.trans hg')
  obtain ⟨d, hd, hc⟩ := bind_eq_ok.1 hc
  obtain rfl := Except.ok.inj hc
  cases hconstruct : g.construct verbose with
  | error fault =>
    rw [hconstruct] at hd
    cases hd
  | ok d' =>
    rw [hconstruct] at hd
    obtain rfl := Except.ok.inj hd
    obtain ⟨bare, hbare, hgoto⟩ := Augmented.exists_goto?_of_construct hconstruct
    exact ⟨bare, hbare, hgoto⟩

end Grammar

/-! ### Tables with other symbols -/

/-- The table of the renamed grammar is the table with its cells moved. -/
lemma Automaton.Aligned.table_eq {π : Equiv.Perm Symbol} {g g' : Augmented} {a a' : Automaton} {t t' : Table}
    (h : Aligned π (Equiv.refl Nat) (Equiv.refl Nat) g g' a a') (hrenamed : g.Renamed π g') (wf : g.WellFormed)
    (wf' : g'.WellFormed) (ha : a.Closed g) (ha' : a'.Closed g') (ht : t.Fits g a) (ht' : t'.Fits g' a') :
    t' = t.rename π := by
  refine Table.eq_of_action? ?_ (fun n y => ?_) ?_
  · rw [ht'.start]
    exact ht.start.symm
  · obtain ⟨x, rfl⟩ := π.surjective y
    have haction := h.action?_eq wf wf' ha ha' ht ht' n x
    rw [show (⟨Equiv.refl Nat, Equiv.refl Nat⟩ : Renumbering) = .refl from rfl, funext Action.renumber_refl,
      Option.map_id'] at haction
    rw [Table.action?_rename]
    exact haction
  · rw [ht'.rules, hrenamed.rules, ← ht.rules]
    rfl

section

variable {f f' : Symbol → Symbol}

/-- Only what becomes of the symbols of a grammar counts for its rules. -/
lemma Augmented.WellFormed.rules_congr {g : Augmented} (wf : g.WellFormed) (hf : ∀ x ∈ g.kinds, f x = f' x) :
    g.rules.map (Rule.rename f) = g.rules.map (Rule.rename f') := by
  refine Array.map_congr_left fun r hr => ?_
  obtain ⟨n, hn⟩ := Array.mem_iff_getElem?.1 hr
  have hlhs : f r.lhs = f' r.lhs := hf _ (Kinds.mem_iff_exists.2 ⟨_, wf.isNonterminal_lhs hn⟩)
  have hrhs : r.rhs.map f = r.rhs.map f' := List.map_congr_left fun x hx => hf x (wf.mem_kinds hn x hx)
  rw [Rule.rename, hlhs, hrhs]
  rfl

/-- Only what becomes of the symbols of a grammar counts for its table. -/
lemma Table.Fits.rename_congr {g : Augmented} {a : Automaton} {t : Table} (ht : t.Fits g a) (wf : g.WellFormed)
    (hf : ∀ x ∈ g.kinds, f x = f' x) : t.rename f = t.rename f' := by
  have hcells : renameKeys (Cell.rename f) t.cells = renameKeys (Cell.rename f') t.cells := by
    refine renameKeys_congr fun entry hentry => ?_
    have haction : t.action? entry.1.state entry.1.symbol = some entry.2 :=
      Std.ExtTreeMap.mem_toList_iff_getElem?_eq_some.1 hentry
    rw [Cell.rename, hf _ (ht.lt_of_isSome haction).2]
    rfl
  rw [Table.rename, hcells, ht.rules, wf.rules_congr hf, ← ht.rules]
  rfl

end

namespace Grammar

/-- Only what becomes of the symbols of a grammar counts for the renamed grammar. -/
lemma rename_congr {grammar : Grammar} (hdefects : grammar.defects = []) {f f' : Symbol → Symbol}
    (hf : ∀ x ∈ grammar.classification, f x = f' x) : grammar.rename f = grammar.rename f' := by
  have hrole (role : Role) {s : Symbol} (kind : Kind) (h : (role, s, kind) ∈ grammar.roles) : f s = f' s :=
    hf s (Kinds.mem_iff_exists.2 ⟨kind, kind_of_role h hdefects⟩)
  have hproductions : grammar.productions.map (Prod.map f (List.map f)) =
      grammar.productions.map (Prod.map f' (List.map f')) := by
    refine List.map_congr_left fun p hp => ?_
    obtain ⟨hlhs, hrhs⟩ := kinds_of_production hdefects hp
    exact Prod.ext (hf _ (Kinds.mem_iff_exists.2 ⟨_, hlhs⟩)) (List.map_congr_left fun x hx => hf x (hrhs x hx))
  have hkinds : renameKeys f grammar.kinds = renameKeys f' grammar.kinds := by
    refine renameKeys_congr fun entry hentry => hf _ ?_
    have hmem : entry.1 ∈ grammar.kinds :=
      Kinds.mem_iff_exists.2 ⟨entry.2, Std.ExtTreeMap.mem_toList_iff_getElem?_eq_some.1 hentry⟩
    exact Std.ExtTreeMap.mem_insertIfNew.2 (Or.inr hmem)
  have hunknown : f grammar.unknown = f' grammar.unknown := hrole .unknown .terminal (by simp [roles])
  have hinit : f grammar.init = f' grammar.init := hrole .init .nonterminal (by simp [roles])
  have hstart : f grammar.start = f' grammar.start := hrole .start .nonterminal (by simp [roles])
  rw [rename, hunknown, hinit, hstart, hproductions, hkinds]
  rfl

/-- A map that is injective on the symbols of a grammar and avoids the placeholder does to them what some
permutation does that keeps the placeholder. -/
lemma exists_perm_of_injOn {grammar : Grammar} {ρ : Symbol → Symbol}
    (hinjective : Set.InjOn ρ {x | x ∈ grammar.classification})
    (hplaceholder : ∀ x ∈ grammar.classification, ρ x ≠ Symbol.placeholder)
    (hreserved : Symbol.placeholder ∉ grammar.classification) :
    ∃ π : Equiv.Perm Symbol, π Symbol.placeholder = Symbol.placeholder ∧
      ∀ x ∈ grammar.classification, π x = ρ x := by
  let symbol : Option {x // x ∈ grammar.classification} → Symbol := fun o => o.elim Symbol.placeholder Subtype.val
  let image : Option {x // x ∈ grammar.classification} → Symbol :=
    fun o => o.elim Symbol.placeholder fun x => ρ x
  have hsymbol : Function.Injective symbol := by
    refine Option.injective_iff.2 ⟨Subtype.val_injective, ?_⟩
    rintro ⟨x, hx⟩
    have hvalue : x.1 = Symbol.placeholder := hx
    exact hreserved (hvalue ▸ x.2)
  have himage : Function.Injective image := by
    refine Option.injective_iff.2 ⟨fun x y heq => Subtype.ext (hinjective x.2 y.2 heq), ?_⟩
    rintro ⟨x, hx⟩
    exact hplaceholder x x.2 hx
  obtain ⟨π, hπ⟩ := Equiv.Perm.exists_extending_pair symbol image hsymbol himage
  exact ⟨π, hπ none, fun x hx => hπ (some ⟨x, hx⟩)⟩

/-- The symbols of a grammar, those that have a kind, may have any numbers that tell them apart, if the end of input
keeps its number and none is that of the placeholder.  A grammar that passes its checks passes them with the new
numbers, its rules have the same numbers and the new symbols, and its table is the given one with each action moved
to the new symbol of its cell: states, targets, rule numbers and the start are the same.  The states of the automata
have the same kernels. -/
theorem table_of_renamed_symbols {grammar : Grammar} {g : Augmented} (hg : grammar.augment = .ok g)
    {ρ : Symbol → Symbol} (hinjective : Set.InjOn ρ {x | x ∈ grammar.classification})
    (heof : ρ Symbol.eof = Symbol.eof)
    (hplaceholder : ∀ x ∈ grammar.classification, ρ x ≠ Symbol.placeholder) (verbose : Bool) :
    ∃ g' c c', (grammar.rename ρ).augment = .ok g' ∧ g'.rules = g.rules.map (Rule.rename ρ) ∧
      grammar.construct verbose = .ok c ∧ (grammar.rename ρ).construct verbose = .ok c' ∧
      c'.table = c.table.rename ρ ∧
      (∀ n, ∀ x ∈ grammar.classification, c'.table.action? n (ρ x) = c.table.action? n x) ∧
      c'.automaton.states.size = c.automaton.states.size ∧
      KernelAt c'.automaton.states = KernelAt c.automaton.states := by
  obtain ⟨hdefects, -, -, hkinds, -⟩ := augment_eq_ok hg
  have wf := wellFormed_of_augment hg
  have hmem : Symbol.eof ∈ grammar.classification := hkinds ▸ Kinds.mem_iff_exists.2 ⟨_, wf.eof⟩
  obtain ⟨π, hreserved, hπ⟩ := exists_perm_of_injOn hinjective hplaceholder (hkinds ▸ wf.placeholder)
  have hend : π Symbol.eof = Symbol.eof := (hπ _ hmem).trans heof
  have hρ : ∀ x ∈ g.kinds, ρ x = π x := fun x hx => (hπ x (hkinds ▸ hx)).symm
  have hrename : grammar.rename ρ = grammar.rename π := rename_congr hdefects fun x hx => (hπ x hx).symm
  obtain ⟨g', hg'⟩ := exists_augment_of_defects (defects_rename hend hreserved hdefects)
  have wf' := wellFormed_of_augment hg'
  have hrenamed := renamed hend hg hg'
  obtain ⟨c, hc, -, hclosed, hfits⟩ := exists_construct_eq_ok hg verbose
  obtain ⟨c', hc', -, hclosed', hfits'⟩ := exists_construct_eq_ok hg' verbose
  have hgoto (n : Nat) (x : Symbol) : c'.automaton.goto? n (π x) = c.automaton.goto? n x := by
    obtain ⟨bare, hbare, hsame⟩ := exists_goto?_of_construct hg hc
    obtain ⟨bare', hbare', hsame'⟩ := exists_goto?_of_construct hg' hc'
    rw [hrenamed.automaton, hbare] at hbare'
    obtain rfl := Except.ok.inj hbare'
    rw [hsame, hsame', Automaton.goto?_rename]
  have haligned := Automaton.aligned_of_goto? (hrenamed.isomorphic hend hreserved) hclosed.explored
    hclosed'.explored hgoto
  have htable : c'.table = c.table.rename π :=
    haligned.table_eq hrenamed wf wf' hclosed hclosed' hfits hfits'
  refine ⟨g', c, c', hrename ▸ hg', ?_, hc, hrename ▸ hc', ?_, fun n x hx => ?_, ?_, ?_⟩
  · rw [hrenamed.rules, wf.rules_congr hρ]
  · rw [htable, hfits.rename_congr wf hρ]
  · rw [htable, ← hπ x hx, Table.action?_rename]
  · exact eq_of_forall_lt_iff haligned.size
  · funext n c
    exact propext (haligned.kernel n c)

/-- Numbers in the opposite order, some of them negative; the end of input keeps its own. -/
def mirror (x : Symbol) : Symbol := if x = Symbol.eof then Symbol.eof else ⟨5 - x.id⟩

/-- Nested pairs of the symbols `-5` and `-6` in place of `10` and `11`: the order of all symbols is reversed, even
the unknown terminal has another number, and the table is the same up to the symbols of its cells. -/
theorem table_of_renamed_symbols_nested :
    Set.InjOn mirror {x | x ∈ nested.classification} ∧ mirror Symbol.eof = Symbol.eof ∧
    (∀ x ∈ nested.classification, mirror x ≠ Symbol.placeholder) ∧
    ∃ g g' c c', nested.augment = .ok g ∧ (nested.rename mirror).augment = .ok g' ∧
      g'.rules = g.rules.map (Rule.rename mirror) ∧ nested.construct false = .ok c ∧
      (nested.rename mirror).construct false = .ok c' ∧ c'.table = c.table.rename mirror ∧
      c.table.action? 0 ⟨10⟩ = some (.shift 2) ∧ c'.table.action? 0 ⟨-5⟩ = some (.shift 2) := by
  have hmem {x : Symbol} (hx : x ∈ nested.classification) : ∃ kind, (x, kind) ∈ nested.classification.toList := by
    obtain ⟨kind, hkind⟩ := Kinds.mem_iff_exists.1 hx
    exact ⟨kind, Std.ExtTreeMap.mem_toList_iff_getElem?_eq_some.2 hkind⟩
  have hinjective : Set.InjOn mirror {x | x ∈ nested.classification} := by
    have hall : ∀ p ∈ nested.classification.toList, ∀ q ∈ nested.classification.toList,
        mirror p.1 = mirror q.1 → p.1 = q.1 := by decide +kernel
    intro x hx y hy heq
    obtain ⟨kind, hx⟩ := hmem hx
    obtain ⟨kind', hy⟩ := hmem hy
    exact hall _ hx _ hy heq
  have heof : mirror Symbol.eof = Symbol.eof := by decide
  have hplaceholder : ∀ x ∈ nested.classification, mirror x ≠ Symbol.placeholder := by
    have hall : ∀ p ∈ nested.classification.toList, mirror p.1 ≠ Symbol.placeholder := by decide +kernel
    intro x hx
    obtain ⟨kind, hx⟩ := hmem hx
    exact hall _ hx
  have hopen : ⟨10⟩ ∈ nested.classification := by decide +kernel
  obtain ⟨g, hg⟩ := exists_augment_nested
  obtain ⟨g', c, c', hg', hrules, hc, hc', htable, hcells, -⟩ :=
    table_of_renamed_symbols hg hinjective heof hplaceholder false
  have hrun : (do
      let c ← (nested.construct false).toOption
      some (c.table.action? 0 ⟨10⟩)) = some (some (.shift 2)) := by decide +kernel
  rw [hc] at hrun
  have haction : c.table.action? 0 ⟨10⟩ = some (.shift 2) := by simpa [Except.toOption] using hrun
  have hmirror : mirror ⟨10⟩ = ⟨-5⟩ := by decide
  have haction' : c'.table.action? 0 ⟨-5⟩ = some (.shift 2) := by rw [← hmirror, hcells 0 _ hopen, haction]
  exact ⟨hinjective, heof, hplaceholder, g, g', c, c', hg, hg', hrules, hc, hc', htable, haction, haction'⟩

end Grammar

end Lalr
