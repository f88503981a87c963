import Lalr.Proofs.FollowSets

/-!
# The least closed analysis

`Analysis.compute` can be started on any analysis, also on what other rules, another start symbol or another end of
input have left behind.  Its outcome is then the least analysis above that one in which the end of input follows the
start symbol and all the equations of the productions hold (`Analysis.Closed`).

Two facts carry the argument.  A pass that changes nothing has found the equations satisfied, because passes only
add, so that each of its parts has changed nothing either.  And a pass over an analysis that is below a closed one
stays below it.  The least closed analysis depends on nothing but the set of the productions, and so does the outcome.
-/

namespace Lalr

namespace Analysis

/-! ### The equations of productions -/

/-- The end of input follows the start symbol, and the equations of the productions hold. -/
structure Closed (ps : List (Symbol × Body)) (start eof : Symbol) (a : Analysis) : Prop where
  /-- The end of input follows the start symbol. -/
  eof_mem : eof ∈ a.follow start
  /-- A symbol is nullable when all of one of its bodies is. -/
  nullable : ∀ {A : Symbol} {ω : Body}, (A, ω) ∈ ps → (∀ x ∈ ω, a.nullable x = true) → a.nullable A = true
  /-- What begins a symbol of a body begins the left-hand side when all that stands before it is nullable. -/
  first : ∀ {A s : Symbol} {before rest : Body}, (A, before ++ s :: rest) ∈ ps →
    (∀ x ∈ before, a.nullable x = true) → ∀ t ∈ a.first s, t ∈ a.first A
  /-- What follows the left-hand side follows a symbol of the body when all that stands behind it is nullable. -/
  inherit : ∀ {A s : Symbol} {before rest : Body}, (A, before ++ s :: rest) ∈ ps →
    (∀ x ∈ rest, a.nullable x = true) → ∀ t ∈ a.follow A, t ∈ a.follow s
  /-- What begins a later symbol of a body follows an earlier one when all that stands between is nullable. -/
  meet : ∀ {A s u : Symbol} {before between rest : Body}, (A, before ++ s :: (between ++ u :: rest)) ∈ ps →
    (∀ x ∈ between, a.nullable x = true) → ∀ t ∈ a.first u, t ∈ a.follow s

variable {ps qs : List (Symbol × Body)} {start eof : Symbol} {rules : List Rule}

/-- Closed analyses know the set of the productions only. -/
lemma Closed.congr {a : Analysis} (h : a.Closed ps start eof) (hps : ∀ p, p ∈ qs ↔ p ∈ ps) :
    a.Closed qs start eof where
  eof_mem := h.eof_mem
  nullable hp := h.nullable ((hps _).1 hp)
  first hp := h.first ((hps _).1 hp)
  inherit hp := h.inherit ((hps _).1 hp)
  meet hp := h.meet ((hps _).1 hp)

/-- `b` is the least closed analysis above `a`. -/
structure LeastClosed (ps : List (Symbol × Body)) (start eof : Symbol) (a b : Analysis) : Prop where
  /-- It says all that `a` says. -/
  grows : Grows a b
  /-- The equations hold. -/
  closed : b.Closed ps start eof
  /-- Every closed analysis above `a` says all that it says. -/
  least : ∀ c, Grows a c → c.Closed ps start eof → Grows b c

/-- There is one least closed analysis, and it depends on the set of the productions only. -/
lemma LeastClosed.unique {a b c : Analysis} (hb : LeastClosed ps start eof a b) (hc : LeastClosed qs start eof a c)
    (hps : ∀ p, p ∈ qs ↔ p ∈ ps) : b = c :=
  (hb.least c hc.grows (hc.closed.congr fun p => (hps p).symm)).antisymm
    (hc.least b hb.grows (hb.closed.congr hps))

/-- A closed analysis is its own least closed analysis. -/
lemma Closed.leastClosed {a : Analysis} (h : a.Closed ps start eof) : LeastClosed ps start eof a a :=
  ⟨.refl a, h, fun _ hc _ => hc⟩

/-- The beginnings of a body are those of its symbols with nothing but nullable symbols before them. -/
lemma mem_firstOfAll_iff {a : Analysis} {body : Body} {t : Symbol} :
    t ∈ a.firstOfAll body ↔
      ∃ before s rest, body = before ++ s :: rest ∧ (∀ x ∈ before, a.nullable x = true) ∧ t ∈ a.first s := by
  induction body with
  | nil => simp [firstOfAll]
  | cons s body ih =>
    have hsplit : (∃ before u rest, s :: body = before ++ u :: rest ∧ (∀ x ∈ before, a.nullable x = true) ∧
        t ∈ a.first u) ↔ t ∈ a.first s ∨ a.nullable s = true ∧ t ∈ a.firstOfAll body := by
      rw [ih]
      constructor
      · rintro ⟨_ | ⟨x, before⟩, u, rest, heq, hbefore, ht⟩
        · obtain ⟨rfl, rfl⟩ := List.cons.inj heq
          exact Or.inl ht
        · obtain ⟨rfl, rfl⟩ := List.cons.inj heq
          obtain ⟨hs, hbefore⟩ := List.forall_mem_cons.1 hbefore
          exact Or.inr ⟨hs, before, u, rest, rfl, hbefore, ht⟩
      · rintro (ht | ⟨hs, before, u, rest, rfl, hbefore, ht⟩)
        · exact ⟨[], s, body, rfl, by simp, ht⟩
        · exact ⟨s :: before, u, rest, rfl, List.forall_mem_cons.2 ⟨hs, hbefore⟩, ht⟩
    rw [hsplit, firstOfAll]
    split
    · rename_i hs
      simp [Std.ExtTreeSet.mem_union_iff, hs]
    · rename_i hs
      simp [hs]

/-! ### Passes stay below closed analyses -/

/-- An analysis that another one is above of records no more about nullable symbols and beginnings. -/
lemma Grows.below {a b : Analysis} (h : Grows a b) : Below a b := by
  refine ⟨fun s hs => ?_, fun s t ht => ?_, h.mem_facts⟩
  · have hrel := h s
    unfold Analysis.nullable at hs ⊢
    revert hrel hs
    generalize a.facts[s]? = f
    generalize b.facts[s]? = g
    rintro hs (hfg | -)
    · exact hfg.nullable hs
    · exact hs
  · have hrel := h s
    unfold Analysis.first at ht ⊢
    revert hrel ht
    generalize a.facts[s]? = f
    generalize b.facts[s]? = g
    rintro ht (hfg | -)
    · exact hfg.first t ht
    · exact ht

/-- An update stays below an analysis that says about the symbol all that the update says. -/
lemma Grows.modify {a c : Analysis} (h : Grows a c) (s : Symbol) {u : Facts → Facts}
    (hu : ∀ f g, c.facts[s]? = some g → f.Le g → (u f).Le g) : Grows ⟨a.facts.modify s u⟩ c := by
  intro x
  change Option.Rel Facts.Le (a.facts.modify s u)[x]? c.facts[x]?
  rw [getElem?_facts_modify]
  have hx := h x
  revert hx
  generalize a.facts[x]? = f
  generalize hg : c.facts[x]? = g
  rintro (hfg | -)
  · refine .some ?_
    split
    · rename_i hxs
      subst hxs
      exact hu _ _ hg hfg
    · exact hfg
  · exact .none

/-- Marking a symbol stays below an analysis in which it is nullable. -/
lemma Grows.markNullable {a c : Analysis} (h : Grows a c) {s : Symbol} (hs : c.nullable s = true) :
    Grows (a.markNullable s) c := by
  apply h.modify s
  intro f g hg hfg
  have hnullable : g.nullable = true := by simpa [Analysis.nullable, hg] using hs
  exact ⟨hfg.kind, hfg.first, hfg.follow, fun _ => hnullable⟩

/-- Adding beginnings stays below an analysis that has them. -/
lemma Grows.addFirst {a c : Analysis} (h : Grows a c) {s : Symbol} {set : SymbolSet}
    (hset : ∀ t ∈ set, t ∈ c.first s) : Grows (a.addFirst s set) c := by
  apply h.modify s
  intro f g hg hfg
  refine ⟨hfg.kind, ?_, hfg.follow, hfg.nullable⟩
  intro t ht
  rcases Std.ExtTreeSet.mem_union_iff.1 ht with ht | ht
  · exact hfg.first t ht
  · simpa [Analysis.first, hg] using hset t ht

/-- Adding what follows stays below an analysis that has it. -/
lemma Grows.addFollow {a c : Analysis} (h : Grows a c) {s : Symbol} {set : SymbolSet}
    (hset : ∀ t ∈ set, t ∈ c.follow s) : Grows (a.addFollow s set) c := by
  apply h.modify s
  intro f g hg hfg
  refine ⟨hfg.kind, hfg.first, ?_, hfg.nullable⟩
  intro t ht
  rcases Std.ExtTreeSet.mem_union_iff.1 ht with ht | ht
  · exact hfg.follow t ht
  · simpa [Analysis.follow, hg] using hset t ht

/-- Nullable bodies are nullable symbol by symbol. -/
lemma allNullable_eq_true {a : Analysis} {body : Body} :
    a.allNullable body = true ↔ ∀ x ∈ body, a.nullable x = true :=
  List.all_eq_true

namespace Closed

variable {a c : Analysis} (hc : c.Closed ps start eof)
include hc

/-- Spreading what follows over the end of a body stays below a closed analysis. -/
lemma grows_spreadFollow (h : Grows a c) {lhs : Symbol} (before : Body) {body : Body}
    (hp : (lhs, before ++ body) ∈ ps) : Grows (spreadFollow lhs body a) c := by
  induction body generalizing a before with
  | nil => exact h
  | cons s rest ih =>
    rw [spreadFollow]
    refine ih (h.addFollow ?_) (before ++ [s]) (by simpa using hp)
    intro t ht
    rcases Std.ExtTreeSet.mem_union_iff.1 ht with ht | ht
    · obtain ⟨between, u, rest, rfl, hbetween, ht⟩ := mem_firstOfAll_iff.1 (h.below.firstOfAll ht)
      exact hc.meet hp hbetween t ht
    · split at ht
      · rename_i hrest
        exact hc.inherit hp (allNullable_eq_true.1 (h.below.allNullable hrest)) t (h.mem_follow ht)
      · simp at ht

/-- Applying a rule stays below a closed analysis. -/
lemma grows_applyRule (h : Grows a c) {r : Rule} (hr : (r.lhs, r.rhs) ∈ ps) : Grows (a.applyRule r) c := by
  have hmark : Grows (a.markRule r) c := by
    unfold markRule
    split
    · rename_i hall
      exact h.markNullable (hc.nullable hr (allNullable_eq_true.1 (h.below.allNullable hall)))
    · exact h
  have hbegin : Grows (a.beginRule r) c := by
    apply hmark.addFirst
    intro t ht
    obtain ⟨before, s, rest, hsplit, hbefore, ht⟩ := mem_firstOfAll_iff.1 (hmark.below.firstOfAll ht)
    rw [hsplit] at hr
    exact hc.first hr hbefore t ht
  exact hc.grows_spreadFollow hbegin [] hr

/-- A pass stays below a closed analysis. -/
lemma grows_pass (hrules : ∀ r ∈ rules, (r.lhs, r.rhs) ∈ ps) (h : Grows a c) : Grows (pass rules a) c := by
  unfold Analysis.pass
  induction rules generalizing a with
  | nil => exact h
  | cons r rules ih =>
    apply ih
    · intro q hq
      exact hrules q (List.mem_cons_of_mem r hq)
    · exact hc.grows_applyRule h (hrules r List.mem_cons_self)

end Closed

/-! ### Passes that change nothing -/

/-- An analysis that a pass leaves alone satisfies the equations of the rules. -/
lemma closed_of_pass_eq {a : Analysis} (hpass : pass rules a = a)
    (hrules : ∀ r ∈ rules, ∀ s ∈ r.lhs :: r.rhs, s ∈ a.facts) (heof : eof ∈ a.follow start) :
    a.Closed (productionsOf rules) start eof := by
  -- each of the three parts of a rule leaves the analysis alone
  have hparts {r : Rule} (hr : r ∈ rules) :
      a.markRule r = a ∧ a.beginRule r = a ∧ spreadFollow r.lhs r.rhs a = a := by
    have hrule : spreadFollow r.lhs r.rhs (a.beginRule r) = a := applyRule_eq_of_pass_eq hpass hr
    have hbegin : a.beginRule r = a := by
      apply Grows.antisymm _ (grows_beginRule a r)
      have hgrows := grows_spreadFollow r.lhs r.rhs (a.beginRule r)
      rwa [hrule] at hgrows
    have hmark : a.markRule r = a := by
      apply Grows.antisymm _ (grows_markRule a r)
      have hgrows := grows_addFirst (a.markRule r) r.lhs ((a.markRule r).firstOfAll r.rhs)
      rwa [show (a.markRule r).addFirst r.lhs ((a.markRule r).firstOfAll r.rhs) = a from hbegin] at hgrows
    rw [hbegin] at hrule
    exact ⟨hmark, hbegin, hrule⟩
  have hfollow {A s : Symbol} {before rest : Body} (hp : (A, before ++ s :: rest) ∈ productionsOf rules)
      {t : Symbol} (ht : t ∈ a.firstOfAll rest ∨ a.allNullable rest = true ∧ t ∈ a.follow A) : t ∈ a.follow s := by
    obtain ⟨r, hr, heq⟩ := List.mem_map.1 hp
    obtain ⟨rfl, hrhs⟩ := Prod.mk.inj heq
    exact mem_follow_of_spreadFollow_eq (hparts hr).2.2 (fun x hx => hrules r hr x (List.mem_cons_of_mem _ hx))
      hrhs ht
  refine ⟨heof, ?_, ?_, ?_, ?_⟩
  · intro A ω hp hω
    obtain ⟨r, hr, heq⟩ := List.mem_map.1 hp
    obtain ⟨rfl, rfl⟩ := Prod.mk.inj heq
    have hmark := (hparts hr).1
    rw [markRule, if_pos (allNullable_eq_true.2 hω)] at hmark
    rw [← hmark]
    exact (nullable_markNullable a r.lhs r.lhs).2 (Or.inr ⟨rfl, hrules r hr r.lhs List.mem_cons_self⟩)
  · intro A s before rest hp hbefore t ht
    obtain ⟨r, hr, heq⟩ := List.mem_map.1 hp
    obtain ⟨rfl, hrhs⟩ := Prod.mk.inj heq
    obtain ⟨hmark, hbegin, -⟩ := hparts hr
    rw [beginRule, hmark] at hbegin
    rw [← hbegin]
    refine (mem_first_addFirst a r.lhs r.lhs t _).2 (Or.inr ⟨⟨rfl, hrules r hr r.lhs List.mem_cons_self⟩, ?_⟩)
    exact mem_firstOfAll_iff.2 ⟨before, s, rest, hrhs, hbefore, ht⟩
  · intro A s before rest hp hrest t ht
    exact hfollow hp (Or.inr ⟨allNullable_eq_true.2 hrest, ht⟩)
  · intro A s u before between rest hp hbetween t ht
    exact hfollow hp (Or.inl (mem_firstOfAll_iff.2 ⟨between, u, rest, rfl, hbetween, ht⟩))

/-! ### The outcome is the least closed analysis -/

/-- The end of input follows the start symbol once it has been added. -/
lemma eof_mem_addFollow {a : Analysis} (hstart : start ∈ a.facts) : eof ∈ (a.addFollow start {eof}).follow start :=
  (mem_follow_addFollow a start start eof {eof}).2 (Or.inr ⟨⟨rfl, hstart⟩, SymbolSet.mem_singleton.2 rfl⟩)

/-- Adding the end of input stays below an analysis in which it follows the start symbol. -/
lemma Grows.addEof {a c : Analysis} (h : Grows a c) (heof : eof ∈ c.follow start) :
    Grows (a.addFollow start {eof}) c := by
  apply h.addFollow
  intro t ht
  rwa [SymbolSet.mem_singleton.1 ht]

/-- The computation ends at the least closed analysis above the one at the start. -/
lemma leastClosed_of_compute {a b : Analysis} {grew : Bool} (h : a.compute start eof rules = .ok (b, grew))
    (hstart : start ∈ a.facts) (hrules : ∀ r ∈ rules, ∀ s ∈ r.lhs :: r.rhs, s ∈ a.facts) :
    LeastClosed (productionsOf rules) start eof a b := by
  obtain ⟨hpass, hpreserves⟩ := compute_eq_ok h
  have hgrows : Grows (a.addFollow start {eof}) b := by
    apply hpreserves (P := fun x => Grows (a.addFollow start {eof}) x) _ (.refl _)
    intro x hx
    exact hx.trans (grows_pass rules x)
  have hab : Grows a b := (grows_addFollow a start {eof}).trans hgrows
  refine ⟨hab, closed_of_pass_eq hpass ?_ (hgrows.mem_follow (eof_mem_addFollow hstart)), ?_⟩
  · intro r hr s hs
    exact (hab.mem_facts s).2 (hrules r hr s hs)
  · intro c hac hc
    apply hpreserves (P := fun x => Grows x c)
    · intro x hx
      exact hc.grows_pass (fun r hr => List.mem_map.2 ⟨r, hr, rfl⟩) hx
    · exact hac.addEof hc.eof_mem

/-- A computation over classified symbols succeeds, with the least closed analysis and with the answer whether it is
another one. -/
lemma exists_compute_leastClosed (a : Analysis) {start : Symbol} (eof : Symbol) {rules : List Rule}
    (hstart : start ∈ a.facts) (hrules : ∀ r ∈ rules, ∀ s ∈ r.lhs :: r.rhs, s ∈ a.facts) :
    ∃ b, a.compute start eof rules = .ok (b, decide (b ≠ a)) ∧
      LeastClosed (productionsOf rules) start eof a b ∧ b.weight a.symbols < (a.addFollow start {eof}).fuel := by
  have hclassified : a.unclassified? start rules = none := by
    rw [unclassified?, List.find?_eq_none]
    intro s hs
    have hmem : s ∈ a.facts := by
      rcases List.mem_cons.1 hs with rfl | hs
      · exact hstart
      · obtain ⟨r, hr, hs⟩ := List.mem_flatMap.1 hs
        exact hrules r hr s hs
    simpa using hmem
  obtain ⟨b, grew, hcompute⟩ := exists_compute_eq_ok hclassified eof
  have hwithin : Within (a.addFollow start {eof}).occurring b :=
    (compute_eq_ok hcompute).2 (fun x hx => hx.pass rules) (within_occurring _)
  have hsymbols : (a.addFollow start {eof}).symbols = a.symbols := by
    ext s
    rw [mem_symbols, mem_symbols]
    exact mem_facts_modify a start s _
  refine ⟨b, ?_, leastClosed_of_compute hcompute hstart hrules, hsymbols ▸ hwithin.weight_lt_fuel⟩
  rw [hcompute]
  unfold compute at hcompute
  rw [hclassified] at hcompute
  obtain ⟨⟨c, count⟩, -, heq⟩ := bind_eq_ok.1 hcompute
  obtain ⟨rfl, rfl⟩ := Prod.mk.inj (Except.ok.inj heq)
  rfl

end Analysis

end Lalr
