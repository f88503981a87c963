import Lalr.Grammar.Augmented
import Lalr.Grammar.Builder
import Lalr.Proofs.Analysis
import Lalr.Proofs.Defects

/-!
# Well-formed augmented grammars

A grammar that passes its checks gives an augmented grammar in which everything fits together: rules carry
their own numbers, left-hand sides are nonterminals, all symbols have kinds, every nonterminal has rules, and
the analysis is exact.  `Augmented.WellFormed` collects these facts and `Grammar.wellFormed_of_augment` reads
them off the checks; the theory of the construction starts from `WellFormed` alone.
-/

namespace Lalr

namespace Augmented

/-- The productions of an augmented grammar, the augmenting one included. -/
def productions (g : Augmented) : List (Symbol × Body) :=
  productionsOf g.rules.toList

/-- The parts of an augmented grammar fit together. -/
structure WellFormed (g : Augmented) : Prop where
  /-- The augmenting rule has number zero. -/
  augmenting : g.rules[0]? = some ⟨0, g.init, [g.start]⟩
  /-- A rule carries its own number. -/
  index_eq : ∀ {n : Nat} {r : Rule}, g.rules[n]? = some r → r.index = n
  /-- Only nonterminals have rules. -/
  isNonterminal_lhs : ∀ {n : Nat} {r : Rule}, g.rules[n]? = some r → g.kinds.IsNonterminal r.lhs
  /-- The symbols of bodies have kinds. -/
  mem_kinds : ∀ {n : Nat} {r : Rule}, g.rules[n]? = some r → ∀ x ∈ r.rhs, x ∈ g.kinds
  /-- Only the augmenting rule defines the initial symbol. -/
  eq_zero_of_lhs : ∀ {n : Nat} {r : Rule}, g.rules[n]? = some r → r.lhs = g.init → n = 0
  /-- Every nonterminal has a rule. -/
  exists_rule : ∀ {A : Symbol}, g.kinds.IsNonterminal A →
    ∃ (n : Nat) (r : Rule), g.rules[n]? = some r ∧ r.lhs = A
  /-- The rules of a symbol are listed under it. -/
  mem_rulesOf : ∀ {A : Symbol} {n : Nat}, n ∈ g.rulesOf A ↔ ∃ r : Rule, g.rules[n]? = some r ∧ r.lhs = A
  /-- The end of input is a terminal. -/
  eof : g.kinds.IsTerminal Symbol.eof
  /-- The placeholder is no symbol of the grammar. -/
  placeholder : Symbol.placeholder ∉ g.kinds
  /-- The analysis is exact. -/
  analysis : g.analysis.Exact g.rules.toList g.kinds

variable {g : Augmented}

/-- The productions are the rules without their numbers. -/
lemma mem_productions {A : Symbol} {ω : Body} :
    (A, ω) ∈ g.productions ↔ ∃ (n : Nat) (r : Rule), g.rules[n]? = some r ∧ r.lhs = A ∧ r.rhs = ω := by
  unfold productions productionsOf
  rw [List.mem_map]
  constructor
  · rintro ⟨r, hr, heq⟩
    obtain ⟨n, hn⟩ := List.mem_iff_getElem?.1 hr
    obtain ⟨hA, hω⟩ := Prod.mk.inj heq
    exact ⟨n, r, by rwa [Array.getElem?_toList] at hn, hA, hω⟩
  · rintro ⟨n, r, hn, rfl, rfl⟩
    rw [← Array.getElem?_toList] at hn
    exact ⟨r, List.mem_of_getElem? hn, rfl⟩

/-- A numbered rule is a production. -/
lemma mem_productions_of_rule {n : Nat} {r : Rule} (h : g.rules[n]? = some r) :
    (r.lhs, r.rhs) ∈ g.productions :=
  mem_productions.2 ⟨n, r, h, rfl, rfl⟩

/-- A symbol with a kind that is no terminal is a nonterminal. -/
lemma isTerminal_or_isNonterminal {s : Symbol} (hs : s ∈ g.kinds) :
    g.kinds.IsTerminal s ∨ g.kinds.IsNonterminal s := by
  obtain ⟨kind, hkind⟩ := Kinds.mem_iff_exists.1 hs
  cases kind with
  | terminal => exact Or.inl hkind
  | nonterminal => exact Or.inr hkind

/-- No symbol is both a terminal and a nonterminal. -/
lemma not_isTerminal {s : Symbol} (hs : g.kinds.IsNonterminal s) : ¬ g.kinds.IsTerminal s := by
  intro ht
  unfold Kinds.IsTerminal Kinds.IsNonterminal at *
  rw [hs] at ht
  cases ht

/-- A terminal has a kind. -/
lemma mem_kinds_of_isTerminal {s : Symbol} (hs : g.kinds.IsTerminal s) : s ∈ g.kinds :=
  Kinds.mem_iff_exists.2 ⟨.terminal, hs⟩

/-- The test for nonterminals is the declaration. -/
lemma isNonterminal_iff {s : Symbol} : g.isNonterminal s = true ↔ g.kinds.IsNonterminal s := by
  simp [isNonterminal, Kinds.IsNonterminal]

namespace WellFormed

variable (wf : g.WellFormed)
include wf

/-- Terminals have no productions. -/
lemma not_isTerminal_lhs : ∀ p ∈ g.productions, ¬ g.kinds.IsTerminal p.1 := by
  rintro ⟨A, ω⟩ hp
  obtain ⟨n, r, hr, rfl, -⟩ := mem_productions.1 hp
  exact not_isTerminal (wf.isNonterminal_lhs hr)

/-- The placeholder is no terminal of the grammar. -/
lemma ne_placeholder {s : Symbol} (hs : g.kinds.IsTerminal s) : s ≠ Symbol.placeholder := by
  rintro rfl
  exact wf.placeholder (mem_kinds_of_isTerminal hs)

/-- The analysis knows the nullable bodies. -/
lemma allNullable_iff {u : Body} :
    g.analysis.allNullable u = true ↔ ∀ x ∈ u, Nullable g.productions x :=
  wf.analysis.allNullable_iff u

/-- The analysis knows the terminals that begin a body. -/
lemma mem_firstOfAll {u : Body} {t : Symbol} :
    t ∈ g.analysis.firstOfAll u ↔ Starts g.productions g.kinds u t :=
  wf.analysis.mem_firstOfAll u t

/-- The terminals that begin a body of symbols with kinds can be computed. -/
lemma firstOfAll?_eq {u : Body} (hu : ∀ x ∈ u, x ∈ g.kinds) :
    g.analysis.firstOfAll? u = .ok (g.analysis.firstOfAll u) := by
  unfold Analysis.firstOfAll?
  split
  · rename_i s hs
    rw [if_pos ((wf.analysis.facts s).2 (hu s (List.mem_of_find?_eq_some hs)))]
  · rfl

end WellFormed

end Augmented

/-! ### Grammars without defects -/

namespace Grammar

variable {grammar : Grammar}

/-- The augmenting production comes first. -/
lemma getElem?_distinctProductions_zero :
    grammar.distinctProductions[0]? = some (grammar.init, [grammar.start]) := by
  unfold distinctProductions
  rw [List.eraseDups_cons]
  rfl

/-- The other distinct productions are given productions, and do not define the initial symbol. -/
lemma mem_productions_of_succ {n : Nat} {p : Symbol × Body}
    (h : grammar.distinctProductions[n + 1]? = some p) :
    p ∈ grammar.productions ∧ p.1 ≠ grammar.init := by
  unfold distinctProductions at h
  rw [List.eraseDups_cons, List.getElem?_cons_succ] at h
  have hmem := List.mem_of_getElem? h
  rw [List.mem_eraseDups, List.mem_filter, List.mem_filter] at hmem
  exact ⟨hmem.1.1, by simpa using hmem.1.2⟩

/-- A numbered rule is a distinct production with its place. -/
lemma getElem?_rules {n : Nat} {r : Rule} :
    grammar.rules[n]? = some r ↔
      grammar.distinctProductions[n]? = some (r.lhs, r.rhs) ∧ r.index = n := by
  unfold rules
  rw [List.getElem?_toArray, List.getElem?_mapIdx, Option.map_eq_some_iff]
  constructor
  · rintro ⟨p, hp, rfl⟩
    exact ⟨hp, rfl⟩
  · rintro ⟨hp, rfl⟩
    exact ⟨_, hp, rfl⟩

/-- A rule is the augmenting rule or comes from a given production. -/
lemma rule_cases {n : Nat} {r : Rule} (hr : grammar.rules[n]? = some r) :
    n = 0 ∧ r = ⟨0, grammar.init, [grammar.start]⟩ ∨ (r.lhs, r.rhs) ∈ grammar.productions := by
  obtain ⟨hp, hindex⟩ := getElem?_rules.1 hr
  cases n with
  | zero =>
    rw [getElem?_distinctProductions_zero] at hp
    obtain ⟨hl, hb⟩ := Prod.mk.inj (Option.some.inj hp)
    obtain ⟨i, l, b⟩ := r
    exact Or.inl ⟨rfl, by simp_all⟩
  | succ n => exact Or.inr (mem_productions_of_succ hp).1

/-- Every given production of another symbol than the initial one has a number. -/
lemma exists_rule_of_mem {p : Symbol × Body} (hp : p ∈ grammar.productions)
    (hinit : p.1 ≠ grammar.init) :
    ∃ r : Rule, grammar.rules[r.index]? = some r ∧ r.lhs = p.1 ∧ r.rhs = p.2 := by
  have hmem : p ∈ grammar.distinctProductions := mem_distinctProductions.2 (Or.inr ⟨hp, hinit⟩)
  obtain ⟨n, hn⟩ := List.mem_iff_getElem?.1 hmem
  exact ⟨⟨n, p.1, p.2⟩, getElem?_rules.2 ⟨hn, rfl⟩, rfl, rfl⟩

/-- The given productions and the augmenting one. -/
def augmentedProductions (grammar : Grammar) : List (Symbol × Body) :=
  (grammar.init, [grammar.start]) :: grammar.productions

/-- A grammar is augmented when it has no defects, and then its analysis is computed. -/
lemma augment_eq_ok {g : Augmented} (h : grammar.augment = .ok g) :
    grammar.defects = [] ∧ g.init = grammar.init ∧ g.start = grammar.start ∧
      g.kinds = grammar.classification ∧ g.rules = grammar.rules ∧ g.heads = grammar.heads ∧
      ∃ grew, (Analysis.ofKinds grammar.classification).compute grammar.init Symbol.eof
        grammar.rules.toList = .ok (g.analysis, grew) := by
  unfold augment at h
  obtain ⟨u, hcheck, h⟩ := bind_eq_ok.1 h
  obtain ⟨⟨analysis, grew⟩, hanalysis, h⟩ := bind_eq_ok.1 h
  obtain rfl := Except.ok.inj h
  refine ⟨?_, rfl, rfl, rfl, rfl, rfl, grew, ?_⟩
  · by_contra hne
    unfold GrammarError.check at hcheck
    rw [if_neg (by simpa using hne)] at hcheck
    cases hcheck
  · cases hc : (Analysis.ofKinds grammar.classification).compute grammar.init Symbol.eof
        grammar.rules.toList with
    | error f =>
      rw [hc] at hanalysis
      cases hanalysis
    | ok r =>
      rw [hc] at hanalysis
      obtain rfl : r = (analysis, grew) := Except.ok.inj hanalysis
      rfl

/-- The symbols set apart have their kinds. -/
lemma kind_of_role {role : Role} {s : Symbol} {kind : Kind} (hrole : (role, s, kind) ∈ grammar.roles)
    (hdefects : grammar.defects = []) : grammar.classification[s]? = some kind := by
  by_contra hne
  exact defects_eq_nil.1 hdefects (.wrongKind role s kind) ⟨hrole, hne⟩

/-- Left-hand sides are other symbols than the initial one. -/
lemma lhs_ne_init (hdefects : grammar.defects = []) {p : Symbol × Body}
    (hp : p ∈ grammar.productions) : p.1 ≠ grammar.init := fun hinit =>
  defects_eq_nil.1 hdefects (.initHasRules p.1) ⟨hinit, p.2, hp⟩

/-- Left-hand sides are nonterminals, and bodies have symbols with kinds. -/
lemma kinds_of_production (hdefects : grammar.defects = []) {p : Symbol × Body}
    (hp : p ∈ grammar.productions) :
    grammar.classification.IsNonterminal p.1 ∧ ∀ x ∈ p.2, x ∈ grammar.classification := by
  have hinit := lhs_ne_init hdefects hp
  have hclassified : ∀ x ∈ p.1 :: p.2, x ∈ grammar.classification := by
    intro x hx
    by_contra hnot
    exact defects_eq_nil.1 hdefects (.undefinedSymbol x p.1) ⟨hinit, hnot, p.2, hp, hx⟩
  refine ⟨?_, fun x hx => hclassified x (List.mem_cons_of_mem _ hx)⟩
  obtain ⟨kind, hkind⟩ := Kinds.mem_iff_exists.1 (hclassified p.1 List.mem_cons_self)
  cases kind with
  | nonterminal => exact hkind
  | terminal => exact absurd ⟨hinit, hkind, p.2, hp⟩ (defects_eq_nil.1 hdefects (.terminalHasRules p.1))

/-- Every nonterminal has a numbered rule. -/
lemma exists_distinctProduction (hdefects : grammar.defects = []) {A : Symbol}
    (hA : grammar.classification.IsNonterminal A) : ∃ p ∈ grammar.distinctProductions, p.1 = A := by
  by_cases hinit : A = grammar.init
  · exact ⟨_, List.mem_of_getElem? getElem?_distinctProductions_zero, hinit.symm⟩
  · rw [exists_distinctProduction_iff hinit]
    by_contra hnone
    exact defects_eq_nil.1 hdefects (.noRules A) ⟨hA, hinit, not_exists.1 hnone⟩

/-- The rules of a symbol are listed under it. -/
lemma mem_heads {A : Symbol} {n : Nat} :
    n ∈ grammar.heads.getD A [] ↔
      A ∈ grammar.classification ∧ ∃ r, grammar.rules[n]? = some r ∧ r.lhs = A := by
  unfold heads
  rw [Std.ExtTreeMap.getD_eq_getD_getElem?, Std.ExtTreeMap.getElem?_map,
    Std.ExtTreeMap.mem_iff_isSome_getElem?]
  cases grammar.classification[A]? with
  | none => simp
  | some kind =>
    simp only [Option.map_some, Option.getD_some, List.mem_map, List.mem_filter, beq_iff_eq,
      Option.isSome_some, true_and]
    constructor
    · rintro ⟨r, ⟨hr, hA⟩, rfl⟩
      obtain ⟨m, hm⟩ := List.mem_iff_getElem?.1 hr
      rw [Array.getElem?_toList] at hm
      obtain rfl := (getElem?_rules.1 hm).2
      exact ⟨r, hm, hA⟩
    · rintro ⟨r, hr, hA⟩
      refine ⟨r, ⟨?_, hA⟩, (getElem?_rules.1 hr).2⟩
      rw [← Array.getElem?_toList] at hr
      exact List.mem_of_getElem? hr

/-- The productions of the augmented grammar are the given ones and the augmenting one. -/
lemma mem_productions_iff {g : Augmented} (h : grammar.augment = .ok g) {p : Symbol × Body} :
    p ∈ g.productions ↔ p ∈ grammar.augmentedProductions := by
  obtain ⟨hdefects, -, -, -, hrules, -⟩ := augment_eq_ok h
  obtain ⟨A, ω⟩ := p
  rw [Augmented.mem_productions, hrules, augmentedProductions, List.mem_cons]
  constructor
  · rintro ⟨n, r, hr, rfl, rfl⟩
    obtain ⟨hp, -⟩ := getElem?_rules.1 hr
    cases n with
    | zero =>
      rw [getElem?_distinctProductions_zero] at hp
      exact Or.inl (Option.some.inj hp).symm
    | succ n => exact Or.inr (mem_productions_of_succ hp).1
  · rintro (heq | hp)
    · obtain ⟨rfl, rfl⟩ := Prod.mk.inj heq
      exact ⟨0, ⟨0, _, _⟩, getElem?_rules.2 ⟨getElem?_distinctProductions_zero, rfl⟩, rfl, rfl⟩
    · obtain ⟨r, hr, hlhs, hrhs⟩ := exists_rule_of_mem hp (lhs_ne_init hdefects hp)
      exact ⟨r.index, r, hr, hlhs, hrhs⟩

/-- The start symbol of a grammar that passes its checks is no terminal. -/
lemma not_isTerminal_start {g : Augmented} (h : grammar.augment = .ok g) :
    ¬ grammar.classification.IsTerminal grammar.start := by
  obtain ⟨hdefects, -⟩ := augment_eq_ok h
  have hstart : grammar.classification[grammar.start]? = some .nonterminal :=
    kind_of_role (show (Role.start, grammar.start, Kind.nonterminal) ∈ grammar.roles by simp [roles])
      hdefects
  unfold Kinds.IsTerminal
  simp [hstart]

/-- What passes its checks is well-formed. -/
theorem wellFormed_of_augment {g : Augmented} (h : grammar.augment = .ok g) : g.WellFormed := by
  obtain ⟨hdefects, hinit, hstart, hkinds, hrules, hheads, grew, hcompute⟩ := augment_eq_ok h
  have hroles (role : Role) {s : Symbol} {kind : Kind} (hrole : (role, s, kind) ∈ grammar.roles) :
      grammar.classification[s]? = some kind := kind_of_role hrole hdefects
  have hinitKind : grammar.classification.IsNonterminal grammar.init :=
    hroles .init (by simp [roles])
  constructor
  · rw [hrules, hinit, hstart]
    exact getElem?_rules.2 ⟨getElem?_distinctProductions_zero, rfl⟩
  · intro n r hr
    rw [hrules] at hr
    exact (getElem?_rules.1 hr).2
  · intro n r hr
    rw [hrules] at hr
    rw [hkinds]
    rcases rule_cases hr with ⟨-, rfl⟩ | hp
    · exact hinitKind
    · exact (kinds_of_production hdefects hp).1
  · intro n r hr x hx
    rw [hrules] at hr
    rw [hkinds]
    rcases rule_cases hr with ⟨-, rfl⟩ | hp
    · obtain rfl := List.mem_singleton.1 hx
      exact Kinds.mem_iff_exists.2 ⟨.nonterminal, hroles .start (by simp [roles])⟩
    · exact (kinds_of_production hdefects hp).2 x hx
  · intro n r hr hl
    rw [hrules] at hr
    rcases rule_cases hr with ⟨hn, -⟩ | hp
    · exact hn
    · exact absurd (hl.trans hinit) (lhs_ne_init hdefects hp)
  · intro A hA
    rw [hkinds] at hA
    obtain ⟨p, hp, rfl⟩ := exists_distinctProduction hdefects hA
    obtain ⟨n, hn⟩ := List.mem_iff_getElem?.1 hp
    exact ⟨n, ⟨n, p.1, p.2⟩, by rw [hrules]; exact getElem?_rules.2 ⟨hn, rfl⟩, rfl⟩
  · intro A n
    unfold Augmented.rulesOf
    rw [hheads, hrules, mem_heads, and_iff_right_iff_imp]
    rintro ⟨r, hr, rfl⟩
    rcases rule_cases hr with ⟨-, rfl⟩ | hp
    · exact Kinds.mem_iff_exists.2 ⟨.nonterminal, hinitKind⟩
    · exact Kinds.mem_iff_exists.2 ⟨.nonterminal, (kinds_of_production hdefects hp).1⟩
  · rw [hkinds]
    exact hroles .eof (by simp [roles])
  · rw [hkinds]
    exact fun hmem => defects_eq_nil.1 hdefects (.reservedId Symbol.placeholder) ⟨rfl, hmem⟩
  · rw [hrules, hkinds]
    exact Analysis.exact_of_compute hcompute

/-- A rule other than the augmenting one comes from a given production. -/
lemma mem_productions_of_ne_zero {g : Augmented} (h : grammar.augment = .ok g) {k : Nat} {r : Rule}
    (hk : k ≠ 0) (hr : g.rules[k]? = some r) : (r.lhs, r.rhs) ∈ grammar.productions := by
  obtain ⟨-, hinit, -⟩ := augment_eq_ok h
  rcases List.mem_cons.1 ((mem_productions_iff h).1 (Augmented.mem_productions_of_rule hr)) with heq | hmem
  · have wf := wellFormed_of_augment h
    exact absurd (wf.eq_zero_of_lhs hr ((congrArg Prod.fst heq).trans hinit.symm)) hk
  · exact hmem

/-! ### Nested pairs -/

/-- The grammar of nested pairs, `S ::= a S b | ε`, with the symbols `S = 1`, `a = 10` and `b = 11`. -/
def nested : Grammar :=
  let builder : Builder := { unknown := Symbol.unknown, init := ⟨0⟩, start := ⟨1⟩ }
  ((builder.add ⟨1⟩ [⟨10⟩, ⟨1⟩, ⟨11⟩]).add ⟨1⟩ []).toGrammar

/-- The grammar of nested pairs passes its checks. -/
lemma exists_augment_nested : ∃ g, nested.augment = .ok g := by
  have hok : nested.augment.isOk = true := by decide +kernel
  cases h : nested.augment with
  | error e =>
    rw [h] at hok
    cases hok
  | ok g => exact ⟨g, rfl⟩

/-- Its nonterminals derive the empty string. -/
lemma generates_nested {A : Symbol} (hA : nested.classification.IsNonterminal A) :
    Generates nested.augmentedProductions nested.classification [A] := by
  have hS : Derives nested.augmentedProductions [⟨1⟩] [] :=
    .single (Rewrites.of_production (by decide +kernel))
  have hall : ∀ p ∈ nested.classification.toList, p.2 = .nonterminal → p.1 = ⟨0⟩ ∨ p.1 = ⟨1⟩ := by
    decide +kernel
  rcases hall (A, .nonterminal) (Std.ExtTreeMap.mem_toList_iff_getElem?_eq_some.2 hA) rfl with rfl | rfl
  · exact ⟨[], .head (Rewrites.of_production (by decide +kernel)) hS, by simp⟩
  · exact ⟨[], hS, by simp⟩

end Grammar

end Lalr
