import Lalr.Grammar.Validation
import Mathlib.Tactic.Common

/-!
# What the defects of a grammar say

The checks of a grammar list its defects group by group, without repetitions and in an order that depends on the
order of the productions.  `Grammar.HasDefect` says what each defect means, and a defect is listed exactly when it
is there (`Grammar.mem_defects`).  As the meaning looks at the set of the productions only, so does the set of the
defects.
-/

namespace Lalr

namespace Grammar

/-- What a defect says about a grammar. -/
def HasDefect (g : Grammar) : Defect → Prop
  | .wrongKind role s kind => (role, s, kind) ∈ g.roles ∧ g.classification[s]? ≠ some kind
  | .reservedId s => s = Symbol.placeholder ∧ s ∈ g.classification
  | .initHasRules s => s = g.init ∧ ∃ body, (s, body) ∈ g.productions
  | .terminalHasRules s =>
    s ≠ g.init ∧ g.classification[s]? = some .terminal ∧ ∃ body, (s, body) ∈ g.productions
  | .undefinedSymbol s lhs =>
    lhs ≠ g.init ∧ s ∉ g.classification ∧ ∃ body, (lhs, body) ∈ g.productions ∧ s ∈ lhs :: body
  | .noRules s =>
    g.classification[s]? = some .nonterminal ∧ s ≠ g.init ∧ ∀ body, (s, body) ∉ g.productions
  | .reduceConflict .. => False

variable {g : Grammar} {d : Defect}

/-- The symbols set apart that have the wrong kind are listed. -/
lemma mem_roleDefects : d ∈ g.roleDefects ↔ ∃ role s kind, d = .wrongKind role s kind ∧ g.HasDefect d := by
  unfold roleDefects
  rw [List.mem_filterMap]
  constructor
  · rintro ⟨⟨role, s, kind⟩, hrole, hd⟩
    by_cases hkind : g.classification[s]? = some kind
    · simp [hkind] at hd
    · obtain rfl : Defect.wrongKind role s kind = d := by simpa [hkind] using hd
      exact ⟨role, s, kind, rfl, hrole, hkind⟩
  · rintro ⟨role, s, kind, rfl, hrole, hkind⟩
    exact ⟨(role, s, kind), hrole, if_neg hkind⟩

/-- The placeholder is listed when it is declared. -/
lemma mem_placeholderDefects : d ∈ g.placeholderDefects ↔ ∃ s, d = .reservedId s ∧ g.HasDefect d := by
  unfold placeholderDefects
  split
  · rename_i hmem
    rw [List.mem_singleton]
    constructor
    · rintro rfl
      exact ⟨_, rfl, rfl, hmem⟩
    · rintro ⟨s, rfl, rfl, -⟩
      rfl
  · rename_i hmem
    constructor
    · intro hd
      cases hd
    · rintro ⟨s, rfl, rfl, hs⟩
      exact absurd hs hmem

/-- The left-hand sides that must not have rules are listed. -/
lemma mem_headDefects :
    d ∈ g.headDefects ↔ ∃ s, (d = .initHasRules s ∨ d = .terminalHasRules s) ∧ g.HasDefect d := by
  unfold headDefects
  rw [List.mem_eraseDups, List.mem_filterMap]
  constructor
  · rintro ⟨⟨s, body⟩, hp, hd⟩
    unfold headDefect? at hd
    split at hd
    · rename_i hinit
      obtain rfl := Option.some.inj hd
      exact ⟨s, Or.inl rfl, hinit, body, hp⟩
    · rename_i hinit
      split at hd
      · rename_i hterminal
        obtain rfl := Option.some.inj hd
        exact ⟨s, Or.inr rfl, hinit, hterminal, body, hp⟩
      · cases hd
  · rintro ⟨s, rfl | rfl, hd⟩
    · obtain ⟨hinit, body, hp⟩ := hd
      exact ⟨(s, body), hp, if_pos hinit⟩
    · obtain ⟨hinit, hterminal, body, hp⟩ := hd
      exact ⟨(s, body), hp, by rw [headDefect?, if_neg hinit, if_pos hterminal]⟩

/-- The uses of symbols without a kind are listed. -/
lemma mem_undefinedDefects :
    d ∈ g.undefinedDefects ↔ ∃ s lhs, d = .undefinedSymbol s lhs ∧ g.HasDefect d := by
  have huses {s lhs : Symbol} : (s, lhs) ∈ g.undefinedUses ↔ g.HasDefect (.undefinedSymbol s lhs) := by
    unfold undefinedUses
    rw [Std.ExtTreeSet.mem_toList, Std.ExtTreeSet.mem_ofList, List.contains_iff_mem, List.mem_flatMap]
    constructor
    · rintro ⟨⟨lhs', body⟩, hp, hs⟩
      obtain ⟨hp, hinit⟩ := List.mem_filter.1 hp
      obtain ⟨s', hs', heq⟩ := List.mem_map.1 hs
      obtain ⟨rfl, rfl⟩ := Prod.mk.inj heq
      obtain ⟨hs, hkind⟩ := List.mem_filter.1 hs'
      refine ⟨by simpa using hinit, ?_, body, hp, hs⟩
      simpa [← Std.ExtTreeMap.contains_iff_mem] using hkind
    · rintro ⟨hinit, hkind, body, hp, hs⟩
      refine ⟨(lhs, body), List.mem_filter.2 ⟨hp, by simpa using hinit⟩, List.mem_map.2 ⟨s, ?_, rfl⟩⟩
      exact List.mem_filter.2 ⟨hs, by simpa [← Std.ExtTreeMap.contains_iff_mem] using hkind⟩
  unfold undefinedDefects
  rw [List.mem_map]
  constructor
  · rintro ⟨⟨s, lhs⟩, hs, rfl⟩
    exact ⟨s, lhs, rfl, huses.1 hs⟩
  · rintro ⟨s, lhs, rfl, hd⟩
    exact ⟨(s, lhs), huses.2 hd, rfl⟩

/-- The distinct productions are the augmenting one and the given ones of the other symbols. -/
lemma mem_distinctProductions {p : Symbol × Body} :
    p ∈ g.distinctProductions ↔ p = (g.init, [g.start]) ∨ p ∈ g.productions ∧ p.1 ≠ g.init := by
  unfold distinctProductions
  rw [List.mem_eraseDups, List.mem_cons, List.mem_filter, bne_iff_ne]

/-- A symbol other than the initial one has a distinct production exactly when it has a given one. -/
lemma exists_distinctProduction_iff {s : Symbol} (hs : s ≠ g.init) :
    (∃ p ∈ g.distinctProductions, p.1 = s) ↔ ∃ body, (s, body) ∈ g.productions := by
  constructor
  · rintro ⟨⟨s', body⟩, hp, rfl⟩
    rcases mem_distinctProductions.1 hp with heq | ⟨hp, -⟩
    · exact absurd (congrArg Prod.fst heq) hs
    · exact ⟨body, hp⟩
  · rintro ⟨body, hp⟩
    exact ⟨(s, body), mem_distinctProductions.2 (Or.inr ⟨hp, hs⟩), rfl⟩

/-- The nonterminals without rules are listed. -/
lemma mem_missingDefects : d ∈ g.missingDefects ↔ ∃ s, d = .noRules s ∧ g.HasDefect d := by
  have hany {s : Symbol} (hs : s ≠ g.init) :
      (¬ (g.distinctProductions.any fun p => p.1 == s) = true) ↔ ∀ body, (s, body) ∉ g.productions := by
    rw [List.any_eq_true, ← not_exists, not_iff_not, ← exists_distinctProduction_iff hs]
    simp only [beq_iff_eq]
  unfold missingDefects
  rw [List.mem_filterMap]
  constructor
  · rintro ⟨⟨s, kind⟩, hkind, hd⟩
    obtain ⟨⟨rfl, hinit, hrules⟩, heq⟩ := Option.ite_none_right_eq_some.1 hd
    obtain rfl := Option.some.inj heq
    exact ⟨s, rfl, Std.ExtTreeMap.mem_toList_iff_getElem?_eq_some.1 hkind, hinit, (hany hinit).1 hrules⟩
  · rintro ⟨s, rfl, hkind, hinit, hrules⟩
    refine ⟨(s, .nonterminal), Std.ExtTreeMap.mem_toList_iff_getElem?_eq_some.2 hkind, ?_⟩
    exact if_pos ⟨rfl, hinit, (hany hinit).2 hrules⟩

/-- A defect is listed exactly when it is there. -/
theorem mem_defects : d ∈ g.defects ↔ g.HasDefect d := by
  unfold defects
  simp only [List.mem_append, mem_roleDefects, mem_placeholderDefects, mem_headDefects, mem_undefinedDefects,
    mem_missingDefects]
  cases d with
  | reduceConflict state symbol rules => simp [HasDefect]
  | _ => simp

/-- A grammar has no defects when it has none of them. -/
lemma defects_eq_nil : g.defects = [] ↔ ∀ d, ¬ g.HasDefect d := by
  rw [List.eq_nil_iff_forall_not_mem]
  simp only [mem_defects]

end Grammar

end Lalr
