import Lalr.Proofs.ItemSet
import Lalr.Proofs.WellFormed
import Mathlib.Algebra.Group.Action.Defs
import Mathlib.Algebra.Order.BigOperators.Group.Finset
import Mathlib.Data.Option.Basic

/-!
# The analysis always settles

Applying rules to an analysis only adds to the facts of each symbol, and it adds only terminals that occur in the
analysis already.  The number of all the facts together is therefore bounded, each pass that changes anything
raises it, and the passes settle before their fuel runs out (`Analysis.exists_compute_eq_ok`).

Hence nothing but the defects of a grammar can keep it from being augmented (`Grammar.augment_of_defects`,
`Grammar.exists_augment_of_defects`).
-/

namespace Lalr

/-- A set is at least as large as its parts. -/
lemma SymbolSet.size_le_of_subset {s t : SymbolSet} (h : ∀ x ∈ s, x ∈ t) : s.size ≤ t.size := by
  rw [← card_toFinset, ← card_toFinset]
  exact Finset.card_le_card fun x => by simpa using h x

/-- A part that is as large as the whole is the whole. -/
lemma SymbolSet.eq_of_subset_of_size_le {s t : SymbolSet} (h : ∀ x ∈ s, x ∈ t) (hsize : t.size ≤ s.size) :
    s = t := by
  rw [← card_toFinset, ← card_toFinset] at hsize
  have heq := Finset.eq_of_subset_of_card_le (fun x => by simpa using h x) hsize
  refine Std.ExtTreeSet.ext_mem fun x => ?_
  rw [← mem_toFinset, heq, mem_toFinset]

/-! ### The facts of one symbol -/

namespace Facts

/-- The second facts say all that the first ones say. -/
structure Le (f g : Facts) : Prop where
  kind : g.kind = f.kind
  first : ∀ t ∈ f.first, t ∈ g.first
  follow : ∀ t ∈ f.follow, t ∈ g.follow
  nullable : f.nullable = true → g.nullable = true

/-- Facts say what they say. -/
lemma Le.refl (f : Facts) : f.Le f := ⟨rfl, fun _ h => h, fun _ h => h, id⟩

/-- Saying more can be chained. -/
lemma Le.trans {f g h : Facts} (hfg : f.Le g) (hgh : g.Le h) : f.Le h where
  kind := hgh.kind.trans hfg.kind
  first t ht := hgh.first t (hfg.first t ht)
  follow t ht := hgh.follow t (hfg.follow t ht)
  nullable hnullable := hgh.nullable (hfg.nullable hnullable)

/-- The number of things that facts say. -/
def weight (f : Facts) : Nat := f.first.size + f.follow.size + f.nullable.toNat

/-- Facts that say more have more to say. -/
lemma Le.weight_le {f g : Facts} (h : f.Le g) : f.weight ≤ g.weight := by
  have hfirst := SymbolSet.size_le_of_subset h.first
  have hfollow := SymbolSet.size_le_of_subset h.follow
  have hnullable : f.nullable.toNat ≤ g.nullable.toNat := Bool.toNat_le_toNat h.nullable
  unfold weight
  omega

/-- Facts that say no more than others are the same. -/
lemma Le.eq_of_weight_le {f g : Facts} (h : f.Le g) (hweight : g.weight ≤ f.weight) : f = g := by
  have hfirst := SymbolSet.size_le_of_subset h.first
  have hfollow := SymbolSet.size_le_of_subset h.follow
  have hnullable : f.nullable.toNat ≤ g.nullable.toNat := Bool.toNat_le_toNat h.nullable
  unfold weight at hweight
  have hf := SymbolSet.eq_of_subset_of_size_le h.first (by omega)
  have hl := SymbolSet.eq_of_subset_of_size_le h.follow (by omega)
  have hn : f.nullable = g.nullable := by
    cases hfn : f.nullable <;> cases hgn : g.nullable <;> simp_all
  obtain ⟨kind, first, follow, nullable⟩ := f
  obtain ⟨kind', first', follow', nullable'⟩ := g
  obtain rfl : kind' = kind := h.kind
  obtain rfl : first = first' := hf
  obtain rfl : follow = follow' := hl
  obtain rfl : nullable = nullable' := hn
  rfl

/-- The sets of the facts have no members outside of the given set. -/
def Within (set : SymbolSet) (f : Facts) : Prop := ∀ t, t ∈ f.first ∨ t ∈ f.follow → t ∈ set

/-- A set in which the facts stay bounds what they can say. -/
lemma Within.weight_le {set : SymbolSet} {f : Facts} (h : f.Within set) : f.weight ≤ 2 * set.size + 1 := by
  have hfirst := SymbolSet.size_le_of_subset fun t ht => h t (Or.inl ht)
  have hfollow := SymbolSet.size_le_of_subset fun t ht => h t (Or.inr ht)
  have hnullable := f.nullable.toNat_le
  unfold weight
  omega

end Facts

namespace Analysis

/-! ### Passes add facts -/

/-- The second analysis has the same symbols and says about each of them all that the first one says. -/
def Grows (a b : Analysis) : Prop := ∀ s : Symbol, Option.Rel Facts.Le a.facts[s]? b.facts[s]?

/-- An analysis says what it says. -/
lemma Grows.refl (a : Analysis) : Grows a a := by
  intro s
  cases a.facts[s]? with
  | none => exact .none
  | some f => exact .some (.refl f)

/-- Growth can be chained. -/
lemma Grows.trans {a b c : Analysis} (hab : Grows a b) (hbc : Grows b c) : Grows a c := by
  intro s
  have hab := hab s
  have hbc := hbc s
  revert hab hbc
  generalize a.facts[s]? = f
  generalize b.facts[s]? = g
  generalize c.facts[s]? = h
  rintro (hfg | -) hgh
  · cases hgh with
    | some hgh => exact .some (hfg.trans hgh)
  · cases hgh with
    | none => exact .none

/-- Growth gives facts to no symbol and takes them from none. -/
lemma Grows.mem_facts {a b : Analysis} (h : Grows a b) (s : Symbol) : s ∈ b.facts ↔ s ∈ a.facts := by
  rw [Std.ExtTreeMap.mem_iff_isSome_getElem?, Std.ExtTreeMap.mem_iff_isSome_getElem?]
  have hs := h s
  revert hs
  generalize a.facts[s]? = f
  generalize b.facts[s]? = g
  rintro (hfg | -)
  · exact Iff.rfl
  · exact Iff.rfl

/-- An update that adds to the facts of a symbol adds to the analysis. -/
lemma grows_modify (a : Analysis) (s : Symbol) {h : Facts → Facts} (hh : ∀ f : Facts, f.Le (h f)) :
    Grows a ⟨a.facts.modify s h⟩ := by
  intro x
  change Option.Rel Facts.Le a.facts[x]? (a.facts.modify s h)[x]?
  rw [getElem?_facts_modify]
  cases a.facts[x]? with
  | none => exact .none
  | some f =>
    refine .some ?_
    split
    · exact hh f
    · exact .refl f

/-- Marking a symbol adds to the analysis. -/
lemma grows_markNullable (a : Analysis) (s : Symbol) : Grows a (a.markNullable s) :=
  grows_modify a s fun _ => ⟨rfl, fun _ h => h, fun _ h => h, fun _ => rfl⟩

/-- Adding terminals that begin a symbol adds to the analysis. -/
lemma grows_addFirst (a : Analysis) (s : Symbol) (set : SymbolSet) : Grows a (a.addFirst s set) :=
  grows_modify a s fun _ =>
    ⟨rfl, fun _ h => Std.ExtTreeSet.mem_union_iff.2 (Or.inl h), fun _ h => h, id⟩

/-- Adding terminals that follow a symbol adds to the analysis. -/
lemma grows_addFollow (a : Analysis) (s : Symbol) (set : SymbolSet) : Grows a (a.addFollow s set) :=
  grows_modify a s fun _ =>
    ⟨rfl, fun _ h => h, fun _ h => Std.ExtTreeSet.mem_union_iff.2 (Or.inl h), id⟩

/-- Spreading what follows adds to the analysis. -/
lemma grows_spreadFollow (lhs : Symbol) (body : Body) (a : Analysis) : Grows a (spreadFollow lhs body a) := by
  induction body generalizing a with
  | nil => exact .refl a
  | cons s rest ih => exact (grows_addFollow a s _).trans (ih _)

/-- The analysis in which the first two equations of a rule have been applied. -/
def beginRule (a : Analysis) (r : Rule) : Analysis :=
  (a.markRule r).addFirst r.lhs ((a.markRule r).firstOfAll r.rhs)

/-- The first equation of a rule adds to the analysis. -/
lemma grows_markRule (a : Analysis) (r : Rule) : Grows a (a.markRule r) := by
  unfold markRule
  split
  · exact grows_markNullable a r.lhs
  · exact .refl a

/-- The first two equations of a rule add to the analysis. -/
lemma grows_beginRule (a : Analysis) (r : Rule) : Grows a (a.beginRule r) :=
  (grows_markRule a r).trans (grows_addFirst _ r.lhs _)

/-- Applying a rule adds to the analysis. -/
lemma grows_applyRule (a : Analysis) (r : Rule) : Grows a (a.applyRule r) :=
  (grows_beginRule a r).trans (grows_spreadFollow r.lhs r.rhs (a.beginRule r))

/-- Applying rules adds to the analysis. -/
lemma grows_pass (rules : List Rule) (a : Analysis) : Grows a (pass rules a) := by
  unfold pass
  induction rules generalizing a with
  | nil => exact .refl a
  | cons r rules ih => exact (grows_applyRule a r).trans (ih (a.applyRule r))

/-! ### Passes bring in no new terminals -/

/-- The sets of the analysis have no members outside of the given set. -/
def Within (set : SymbolSet) (a : Analysis) : Prop :=
  ∀ (s : Symbol) (f : Facts), a.facts[s]? = some f → f.Within set

namespace Within

variable {set : SymbolSet} {a : Analysis} (h : Within set a)
include h

/-- The beginnings of a symbol stay in the set. -/
lemma first {s t : Symbol} (ht : t ∈ a.first s) : t ∈ set := by
  unfold Analysis.first at ht
  cases hs : a.facts[s]? with
  | none => simp [hs] at ht
  | some f => exact h s f hs t (Or.inl (by simpa [hs] using ht))

/-- What follows a symbol stays in the set. -/
lemma follow {s t : Symbol} (ht : t ∈ a.follow s) : t ∈ set := by
  unfold Analysis.follow at ht
  cases hs : a.facts[s]? with
  | none => simp [hs] at ht
  | some f => exact h s f hs t (Or.inr (by simpa [hs] using ht))

/-- The beginnings of a body stay in the set. -/
lemma firstOfAll {body : Body} {t : Symbol} (ht : t ∈ a.firstOfAll body) : t ∈ set := by
  induction body with
  | nil => simp [Analysis.firstOfAll] at ht
  | cons s rest ih =>
    unfold Analysis.firstOfAll at ht
    split at ht
    · exact (Std.ExtTreeSet.mem_union_iff.1 ht).elim h.first ih
    · exact h.first ht

/-- An update whose facts stay in the set keeps the analysis there. -/
lemma modify (s : Symbol) {u : Facts → Facts} (hu : ∀ f, f.Within set → (u f).Within set) :
    Within set ⟨a.facts.modify s u⟩ := by
  intro x f hf
  change (a.facts.modify s u)[x]? = some f at hf
  rw [getElem?_facts_modify, Option.map_eq_some_iff] at hf
  obtain ⟨g, hg, rfl⟩ := hf
  split
  · exact hu g (h x g hg)
  · exact h x g hg

/-- Adding terminals of the set that follow keeps the analysis in the set. -/
lemma addFollow (s : Symbol) {more : SymbolSet} (hmore : ∀ t ∈ more, t ∈ set) :
    Within set (a.addFollow s more) := by
  refine h.modify s fun f hf t ht => ?_
  rcases ht with ht | ht
  · exact hf t (Or.inl ht)
  · exact (Std.ExtTreeSet.mem_union_iff.1 ht).elim (fun ht => hf t (Or.inr ht)) (hmore t)

omit h in
/-- Spreading what follows keeps the analysis in the set. -/
lemma spreadFollow (lhs : Symbol) (body : Body) {a : Analysis} (h : Within set a) :
    Within set (Analysis.spreadFollow lhs body a) := by
  induction body generalizing a with
  | nil => exact h
  | cons s rest ih =>
    refine ih (h.addFollow s fun t ht => ?_)
    rcases Std.ExtTreeSet.mem_union_iff.1 ht with ht | ht
    · exact h.firstOfAll ht
    · split at ht
      · exact h.follow ht
      · simp at ht

/-- Applying a rule keeps the analysis in the set. -/
lemma applyRule (r : Rule) : Within set (a.applyRule r) := by
  have hmark : Within set (a.markRule r) := by
    unfold markRule
    split
    · exact h.modify r.lhs fun f hf => hf
    · exact h
  refine Within.spreadFollow r.lhs r.rhs (hmark.modify r.lhs fun f hf t ht => ?_)
  rcases ht with ht | ht
  · exact (Std.ExtTreeSet.mem_union_iff.1 ht).elim (fun ht => hf t (Or.inl ht)) hmark.firstOfAll
  · exact hf t (Or.inr ht)

omit h in
/-- Applying rules keeps the analysis in the set. -/
lemma pass (rules : List Rule) {a : Analysis} (h : Within set a) : Within set (Analysis.pass rules a) := by
  unfold Analysis.pass
  induction rules generalizing a with
  | nil => exact h
  | cons r rules ih => exact ih (h.applyRule r)

end Within

/-- An analysis stays in the set of the symbols that occur in it. -/
lemma within_occurring (a : Analysis) : Within a.occurring a := by
  have hfold (entries : List (Symbol × Facts)) (u : SymbolSet) (t : Symbol)
      (ht : t ∈ u ∨ ∃ e ∈ entries, t ∈ e.2.first ∨ t ∈ e.2.follow) :
      t ∈ entries.foldl (fun u entry => u ∪ entry.2.first ∪ entry.2.follow) u := by
    induction entries generalizing u with
    | nil =>
      rcases ht with ht | ⟨e, he, -⟩
      · exact ht
      · cases he
    | cons entry entries ih =>
      refine ih _ ?_
      rw [Std.ExtTreeSet.mem_union_iff, Std.ExtTreeSet.mem_union_iff]
      rcases ht with ht | ⟨e, he, ht⟩
      · exact Or.inl (Or.inl (Or.inl ht))
      · rcases List.mem_cons.1 he with rfl | he
        · exact Or.inl (ht.elim (fun ht => Or.inl (Or.inr ht)) Or.inr)
        · exact Or.inr ⟨e, he, ht⟩
  intro s f hf t ht
  exact hfold _ ∅ t (Or.inr ⟨(s, f), Std.ExtTreeMap.mem_toList_iff_getElem?_eq_some.2 hf, ht⟩)

/-! ### Passes settle -/

/-- The number of things that the analysis says about some symbols. -/
def weight (symbols : Finset Symbol) (a : Analysis) : Nat :=
  ∑ s ∈ symbols, (a.facts[s]?.map Facts.weight).getD 0

/-- A set in which the analysis stays bounds what it can say. -/
lemma Within.weight_le {set : SymbolSet} {a : Analysis} (h : Within set a) (symbols : Finset Symbol) :
    a.weight symbols ≤ symbols.card * (2 * set.size + 1) := by
  unfold weight
  rw [← smul_eq_mul]
  refine Finset.sum_le_card_nsmul _ _ _ fun s _ => ?_
  cases hs : a.facts[s]? with
  | none => simp
  | some f => exact (h s f hs).weight_le

/-- What an analysis says about a symbol grows with it. -/
lemma Grows.weight_facts_le {a b : Analysis} (h : Grows a b) (s : Symbol) :
    (a.facts[s]?.map Facts.weight).getD 0 ≤ (b.facts[s]?.map Facts.weight).getD 0 := by
  have hs := h s
  revert hs
  generalize a.facts[s]? = f
  generalize b.facts[s]? = g
  rintro (hfg | -)
  · exact hfg.weight_le
  · exact le_rfl

/-- An analysis that grows has no less to say. -/
lemma Grows.weight_le {a b : Analysis} (h : Grows a b) (symbols : Finset Symbol) :
    a.weight symbols ≤ b.weight symbols :=
  Finset.sum_le_sum fun s _ => h.weight_facts_le s

/-- An analysis that grows and changes has more to say. -/
lemma Grows.weight_lt {a b : Analysis} (h : Grows a b) (hne : b ≠ a) {symbols : Finset Symbol}
    (hsymbols : ∀ s ∈ a.facts, s ∈ symbols) : a.weight symbols < b.weight symbols := by
  -- facts that have changed say more
  obtain ⟨s, hs⟩ : ∃ s : Symbol, a.facts[s]? ≠ b.facts[s]? := by
    by_contra hall
    push Not at hall
    obtain ⟨facts⟩ := a
    obtain ⟨facts'⟩ := b
    exact hne (congrArg Analysis.mk (Std.ExtTreeMap.ext_getElem? fun s => (hall s).symm))
  refine Finset.sum_lt_sum (fun s _ => h.weight_facts_le s) ⟨s, ?_, ?_⟩
  · by_contra hnot
    have hmem : s ∉ a.facts := fun hmem => hnot (hsymbols s hmem)
    have hmem' : s ∉ b.facts := fun h' => hmem ((h.mem_facts s).1 h')
    rw [Std.ExtTreeMap.getElem?_eq_none hmem, Std.ExtTreeMap.getElem?_eq_none hmem'] at hs
    exact hs rfl
  · have hrel := h s
    revert hrel hs
    generalize a.facts[s]? = f
    generalize b.facts[s]? = g
    rintro hs (hfg | -)
    · by_contra hnot
      exact hs (congrArg some (hfg.eq_of_weight_le (not_lt.1 hnot)))
    · exact absurd rfl hs

/-- The symbols with facts. -/
def symbols (a : Analysis) : Finset Symbol := a.facts.keys.toFinset

/-- The symbols with facts are listed. -/
lemma mem_symbols {a : Analysis} {s : Symbol} : s ∈ a.symbols ↔ s ∈ a.facts := by
  rw [symbols, List.mem_toFinset, Std.ExtTreeMap.mem_keys]

/-- The fuel of an analysis bounds what can be said with the symbols that occur in it. -/
lemma Within.weight_lt_fuel {a b : Analysis} (h : Within a.occurring b) : b.weight a.symbols < a.fuel := by
  have hcard : a.symbols.card ≤ a.facts.size := by
    rw [← Std.ExtTreeMap.length_keys]
    exact List.toFinset_card_le _
  exact Nat.lt_succ_of_le ((h.weight_le a.symbols).trans (Nat.mul_le_mul_right _ hcard))

/-- The closure of an analysis under rules over its symbols is found. -/
lemma exists_compute_eq_ok {a : Analysis} {start : Symbol} {rules : List Rule}
    (h : a.unclassified? start rules = none) (eof : Symbol) :
    ∃ b grew, a.compute start eof rules = .ok (b, grew) := by
  let seeded := a.addFollow start {eof}
  have hstep (x : Analysis) (hx : Grows seeded x ∧ Within seeded.occurring x) :
      ∃ y changed, (Except.ok (pass rules x, decide (pass rules x ≠ x)) : Except Fault _) = .ok (y, changed) ∧
        (Grows seeded y ∧ Within seeded.occurring y) ∧
        (changed = true → x.weight seeded.symbols < y.weight seeded.symbols) := by
    refine ⟨_, _, rfl, ⟨hx.1.trans (grows_pass rules x), hx.2.pass rules⟩, fun hchanged => ?_⟩
    refine (grows_pass rules x).weight_lt (by simpa using hchanged) fun s hs => ?_
    exact mem_symbols.2 ((hx.1.mem_facts s).1 hs)
  have hbound (x : Analysis) (hx : Grows seeded x ∧ Within seeded.occurring x) :
      x.weight seeded.symbols ≤ seeded.fuel - 1 :=
    Nat.le_sub_one_of_lt hx.2.weight_lt_fuel
  have hfuel : seeded.fuel - 1 < seeded.fuel + seeded.weight seeded.symbols := by
    unfold fuel
    omega
  obtain ⟨b, count, hsettle⟩ :=
    exists_settle_eq_ok (weight seeded.symbols) _ hstep hbound ⟨.refl seeded, within_occurring seeded⟩ hfuel
  refine ⟨b, decide (b ≠ a), ?_⟩
  unfold compute
  rw [h]
  exact bind_eq_ok.2 ⟨(b, count), hsettle, rfl⟩

end Analysis

/-! ### Augmenting -/

namespace Grammar

variable {grammar : Grammar}

/-- A grammar with defects is refused with all of them. -/
lemma augment_of_defects (h : grammar.defects ≠ []) :
    grammar.augment = .error (.invalid ⟨grammar.defects⟩) := by
  unfold augment GrammarError.check
  rw [if_neg (by simpa using h)]
  rfl

/-- The symbols of the rules of a grammar without defects have kinds. -/
lemma unclassified?_of_defects (h : grammar.defects = []) :
    (Analysis.ofKinds grammar.classification).unclassified? grammar.init grammar.rules.toList = none := by
  have hfacts (s : Symbol) : s ∈ (Analysis.ofKinds grammar.classification).facts ↔ s ∈ grammar.classification :=
    Std.ExtTreeMap.mem_map
  have hinit : grammar.init ∈ grammar.classification :=
    Kinds.mem_iff_exists.2 ⟨.nonterminal,
      kind_of_role (show (Role.init, grammar.init, Kind.nonterminal) ∈ grammar.roles by simp [roles]) h⟩
  have hstart : grammar.start ∈ grammar.classification :=
    Kinds.mem_iff_exists.2 ⟨.nonterminal,
      kind_of_role (show (Role.start, grammar.start, Kind.nonterminal) ∈ grammar.roles by simp [roles]) h⟩
  unfold Analysis.unclassified?
  rw [List.find?_eq_none]
  intro s hs
  suffices s ∈ grammar.classification by simpa [hfacts] using this
  rcases List.mem_cons.1 hs with rfl | hs
  · exact hinit
  · obtain ⟨r, hr, hs⟩ := List.mem_flatMap.1 hs
    obtain ⟨n, hn⟩ := List.mem_iff_getElem?.1 hr
    rw [Array.getElem?_toList] at hn
    rcases rule_cases hn with ⟨-, rfl⟩ | hp
    · rcases List.mem_cons.1 hs with rfl | hs
      · exact hinit
      · rw [List.mem_singleton.1 hs]
        exact hstart
    · obtain ⟨hlhs, hrhs⟩ := kinds_of_production h hp
      rcases List.mem_cons.1 hs with rfl | hs
      · exact Kinds.mem_iff_exists.2 ⟨.nonterminal, hlhs⟩
      · exact hrhs s hs

/-- A grammar without defects is augmented. -/
lemma exists_augment_of_defects (h : grammar.defects = []) : ∃ g, grammar.augment = .ok g := by
  obtain ⟨a, grew, hcompute⟩ := Analysis.exists_compute_eq_ok (unclassified?_of_defects h) Symbol.eof
  have hmap := congrArg (Except.mapError Failure.fault) hcompute
  refine ⟨_, bind_eq_ok.2 ⟨(), ?_, bind_eq_ok.2 ⟨(a, grew), hmap, rfl⟩⟩⟩
  rw [h]
  rfl

end Grammar

end Lalr
