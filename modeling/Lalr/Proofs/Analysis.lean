import Lalr.Grammar.Analysis
import Lalr.Proofs.Derivation
import Lalr.Proofs.Settle

/-!
# The analysis is exact

`Analysis.compute`, started on the bare kinds of the symbols, finds exactly the nullable symbols and exactly
the terminals that begin each symbol.

One direction is an invariant of the passes: an analysis is `Sound` when everything it records is true, and
applying the equations of a rule keeps it so.  The other direction looks at the outcome only.  Applying rules
never loses anything, so a pass that changes nothing has found each of its equations satisfied already, and
an analysis that satisfies all equations records everything that can be derived.
-/

namespace Lalr

/-- A set of one symbol has that symbol as its only member. -/
lemma SymbolSet.mem_singleton {s t : Symbol} : t ∈ ({s} : SymbolSet) ↔ t = s := by
  rw [Std.ExtTreeSet.singleton_eq_insert, Std.ExtTreeSet.mem_insert, Std.LawfulEqCmp.compare_eq_iff_eq]
  simp [eq_comm]

/-- The productions behind numbered rules. -/
def productionsOf (rules : List Rule) : List (Symbol × Body) :=
  rules.map fun r => (r.lhs, r.rhs)

namespace Analysis

/-! ### What the updates record -/

/-- An update changes the facts of one symbol. -/
lemma getElem?_facts_modify (a : Analysis) (s x : Symbol) (f : Facts → Facts) :
    (a.facts.modify s f)[x]? = a.facts[x]?.map fun y => if x = s then f y else y := by
  rw [Std.ExtTreeMap.getElem?_modify]
  by_cases hx : x = s
  · subst hx
    simp
  · have hcmp : compare s x ≠ .eq := fun h => hx (Std.LawfulEqOrd.eq_of_compare h).symm
    simp [hx, hcmp]

/-- An update that does not look at nullability leaves the nullable symbols as they are. -/
lemma nullable_modify (a : Analysis) (s x : Symbol) {f : Facts → Facts}
    (hf : ∀ y, (f y).nullable = y.nullable) : nullable ⟨a.facts.modify s f⟩ x = a.nullable x := by
  unfold nullable
  rw [getElem?_facts_modify]
  cases a.facts[x]? with
  | none => rfl
  | some y => by_cases hx : x = s <;> simp [hx, hf]

/-- An update that does not look at beginnings leaves them as they are. -/
lemma first_modify (a : Analysis) (s x : Symbol) {f : Facts → Facts}
    (hf : ∀ y, (f y).first = y.first) : first ⟨a.facts.modify s f⟩ x = a.first x := by
  unfold first
  rw [getElem?_facts_modify]
  cases a.facts[x]? with
  | none => rfl
  | some y => by_cases hx : x = s <;> simp [hx, hf]

/-- Marking a symbol makes it nullable, if it has facts, and no other symbol. -/
lemma nullable_markNullable (a : Analysis) (s x : Symbol) :
    (a.markNullable s).nullable x = true ↔ a.nullable x = true ∨ x = s ∧ s ∈ a.facts := by
  unfold nullable markNullable
  rw [getElem?_facts_modify]
  by_cases hx : x = s
  · subst hx
    cases hs : a.facts[x]? with
    | none => simpa using hs
    | some f => simp [Std.ExtTreeMap.mem_iff_isSome_getElem?, hs]
  · simp [hx]

/-- Marking a symbol leaves the sets of beginning terminals as they are. -/
lemma first_markNullable (a : Analysis) (s x : Symbol) : (a.markNullable s).first x = a.first x :=
  first_modify a s x fun _ => rfl

/-- Adding terminals leaves the nullable symbols as they are. -/
lemma nullable_addFirst (a : Analysis) (s x : Symbol) (set : SymbolSet) :
    (a.addFirst s set).nullable x = a.nullable x :=
  nullable_modify a s x fun _ => rfl

/-- Adding terminals adds them to the symbol, if it has facts, and to no other. -/
lemma mem_first_addFirst (a : Analysis) (s x t : Symbol) (set : SymbolSet) :
    t ∈ (a.addFirst s set).first x ↔ t ∈ a.first x ∨ (x = s ∧ s ∈ a.facts) ∧ t ∈ set := by
  unfold first addFirst
  rw [getElem?_facts_modify]
  by_cases hx : x = s
  · subst hx
    cases hs : a.facts[x]? with
    | none => simp [Std.ExtTreeMap.mem_iff_isSome_getElem?, hs]
    | some f => simp [Std.ExtTreeMap.mem_iff_isSome_getElem?, hs, Std.ExtTreeSet.mem_union_iff]
  · simp [hx]

/-- Adding terminals that follow leaves the nullable symbols as they are. -/
lemma nullable_addFollow (a : Analysis) (s x : Symbol) (set : SymbolSet) :
    (a.addFollow s set).nullable x = a.nullable x :=
  nullable_modify a s x fun _ => rfl

/-- Adding terminals that follow leaves the sets of beginning terminals as they are. -/
lemma first_addFollow (a : Analysis) (s x : Symbol) (set : SymbolSet) :
    (a.addFollow s set).first x = a.first x :=
  first_modify a s x fun _ => rfl

/-- No update gives facts to a symbol without facts, or takes them away. -/
lemma mem_facts_modify (a : Analysis) (s x : Symbol) (f : Facts → Facts) :
    x ∈ a.facts.modify s f ↔ x ∈ a.facts :=
  Std.ExtTreeMap.mem_modify

/-- Spreading what follows touches neither nullable symbols, nor beginnings, nor which symbols have facts. -/
lemma spreadFollow_facts (lhs : Symbol) (body : Body) (a : Analysis) :
    (∀ x, (spreadFollow lhs body a).nullable x = a.nullable x) ∧
      (∀ x, (spreadFollow lhs body a).first x = a.first x) ∧
      ∀ x, x ∈ (spreadFollow lhs body a).facts ↔ x ∈ a.facts := by
  induction body generalizing a with
  | nil => exact ⟨fun _ => rfl, fun _ => rfl, fun _ => Iff.rfl⟩
  | cons s rest ih =>
    unfold spreadFollow
    obtain ⟨hnullable, hfirst, hfacts⟩ := ih
      (a.addFollow s (a.firstOfAll rest ∪ if a.allNullable rest then a.follow lhs else ∅))
    refine ⟨fun x => ?_, fun x => ?_, fun x => ?_⟩
    · rw [hnullable, nullable_addFollow]
    · rw [hfirst, first_addFollow]
    · rw [hfacts]
      exact mem_facts_modify _ _ _ _

/-! ### Comparing analyses -/

/-- Everything that `a` records about nullable symbols and beginnings is recorded by `b`. -/
structure Below (a b : Analysis) : Prop where
  nullable : ∀ s, a.nullable s = true → b.nullable s = true
  first : ∀ s t, t ∈ a.first s → t ∈ b.first s
  facts : ∀ s, s ∈ b.facts ↔ s ∈ a.facts

/-- An analysis is below itself. -/
lemma Below.refl (a : Analysis) : Below a a :=
  ⟨fun _ h => h, fun _ _ h => h, fun _ => Iff.rfl⟩

/-- Comparison of analyses is transitive. -/
lemma Below.trans {a b c : Analysis} (hab : Below a b) (hbc : Below b c) : Below a c :=
  ⟨fun s h => hbc.nullable s (hab.nullable s h), fun s t h => hbc.first s t (hab.first s t h),
    fun s => (hbc.facts s).trans (hab.facts s)⟩

/-- A body that is nullable stays nullable. -/
lemma Below.allNullable {a b : Analysis} (h : Below a b) {body : Body}
    (hbody : a.allNullable body = true) : b.allNullable body = true := by
  unfold Analysis.allNullable at hbody ⊢
  rw [List.all_eq_true] at hbody ⊢
  exact fun s hs => h.nullable s (hbody s hs)

/-- What begins a body continues to begin it. -/
lemma Below.firstOfAll {a b : Analysis} (h : Below a b) {body : Body} {t : Symbol}
    (ht : t ∈ a.firstOfAll body) : t ∈ b.firstOfAll body := by
  induction body with
  | nil => exact ht
  | cons s rest ih =>
    unfold Analysis.firstOfAll at ht ⊢
    by_cases hs : a.nullable s = true
    · rw [if_pos hs, Std.ExtTreeSet.mem_union_iff] at ht
      rw [if_pos (h.nullable s hs), Std.ExtTreeSet.mem_union_iff]
      exact ht.imp (h.first s t) ih
    · rw [if_neg hs] at ht
      have hfirst := h.first s t ht
      split
      · exact Std.ExtTreeSet.mem_union_iff.2 (Or.inl hfirst)
      · exact hfirst

/-- The analysis after the first equation of a rule. -/
def markRule (a : Analysis) (r : Rule) : Analysis :=
  if a.allNullable r.rhs then a.markNullable r.lhs else a

/-- Marking the left-hand side of a rule loses nothing. -/
lemma below_markRule (a : Analysis) (r : Rule) : Below a (a.markRule r) := by
  unfold markRule
  split
  · refine ⟨fun s hs => ?_, fun s t ht => ?_, fun s => mem_facts_modify _ _ _ _⟩
    · exact (nullable_markNullable a r.lhs s).2 (Or.inl hs)
    · rwa [first_markNullable]
  · exact .refl a

/-- Which symbols are nullable after a rule. -/
lemma nullable_applyRule (a : Analysis) (r : Rule) (x : Symbol) :
    (a.applyRule r).nullable x = true ↔
      a.nullable x = true ∨ a.allNullable r.rhs = true ∧ x = r.lhs ∧ r.lhs ∈ a.facts := by
  change (spreadFollow r.lhs r.rhs
    ((a.markRule r).addFirst r.lhs ((a.markRule r).firstOfAll r.rhs))).nullable x = true ↔ _
  rw [(spreadFollow_facts _ _ _).1, nullable_addFirst]
  unfold markRule
  split
  · rename_i h
    rw [nullable_markNullable]
    simp [h]
  · rename_i h
    simp [h]

/-- Which terminals begin a symbol after a rule. -/
lemma mem_first_applyRule (a : Analysis) (r : Rule) (x t : Symbol) :
    t ∈ (a.applyRule r).first x ↔
      t ∈ a.first x ∨ (x = r.lhs ∧ r.lhs ∈ a.facts) ∧ t ∈ (a.markRule r).firstOfAll r.rhs := by
  change t ∈ (spreadFollow r.lhs r.rhs
    ((a.markRule r).addFirst r.lhs ((a.markRule r).firstOfAll r.rhs))).first x ↔ _
  rw [(spreadFollow_facts _ _ _).2.1, mem_first_addFirst, (below_markRule a r).facts]
  unfold markRule
  split
  · rw [first_markNullable]
  · rfl

/-- A rule gives facts to no symbol and takes them from none. -/
lemma mem_facts_applyRule (a : Analysis) (r : Rule) (x : Symbol) :
    x ∈ (a.applyRule r).facts ↔ x ∈ a.facts := by
  change x ∈ (spreadFollow r.lhs r.rhs
    ((a.markRule r).addFirst r.lhs ((a.markRule r).firstOfAll r.rhs))).facts ↔ _
  rw [(spreadFollow_facts _ _ _).2.2]
  exact (mem_facts_modify _ _ _ _).trans ((below_markRule a r).facts x)

/-- Applying a rule loses nothing. -/
lemma below_applyRule (a : Analysis) (r : Rule) : Below a (a.applyRule r) :=
  ⟨fun s hs => (nullable_applyRule a r s).2 (Or.inl hs),
    fun s t ht => (mem_first_applyRule a r s t).2 (Or.inl ht), mem_facts_applyRule a r⟩

/-- Applying rules loses nothing. -/
lemma below_pass (rules : List Rule) (a : Analysis) : Below a (pass rules a) := by
  unfold pass
  induction rules generalizing a with
  | nil => exact .refl a
  | cons r rules ih => exact (below_applyRule a r).trans (ih (a.applyRule r))

/-- A pass applies each rule to an analysis above the one it starts with. -/
lemma exists_applyRule_below_pass {rules : List Rule} {r : Rule} (hr : r ∈ rules) (a : Analysis) :
    ∃ b, Below a b ∧ Below (b.applyRule r) (pass rules a) := by
  obtain ⟨before, after, rfl⟩ := List.append_of_mem hr
  refine ⟨pass before a, below_pass before a, ?_⟩
  have h : pass (before ++ r :: after) a = pass after ((pass before a).applyRule r) := by
    simp [pass]
  rw [h]
  exact below_pass after _

/-! ### Everything recorded is true -/

/-- Everything that the analysis records about nullable symbols and beginnings is true. -/
structure Sound (ps : List (Symbol × Body)) (kinds : Kinds) (a : Analysis) : Prop where
  nullable : ∀ s, a.nullable s = true → Nullable ps s
  first : ∀ s t, t ∈ a.first s → Starts ps kinds [s] t

variable {ps : List (Symbol × Body)} {kinds : Kinds}

/-- The bodies that a sound analysis takes for nullable are nullable. -/
lemma Sound.allNullable {a : Analysis} (h : Sound ps kinds a) {body : Body}
    (hbody : a.allNullable body = true) : ∀ s ∈ body, Nullable ps s := by
  unfold Analysis.allNullable at hbody
  rw [List.all_eq_true] at hbody
  exact fun s hs => h.nullable s (hbody s hs)

/-- What begins a body for a sound analysis begins it. -/
lemma Sound.firstOfAll {a : Analysis} (h : Sound ps kinds a) {body : Body} {t : Symbol}
    (ht : t ∈ a.firstOfAll body) : Starts ps kinds body t := by
  induction body with
  | nil => exact absurd ht (by simp [Analysis.firstOfAll])
  | cons s rest ih =>
    unfold Analysis.firstOfAll at ht
    rw [starts_cons_iff]
    split at ht
    · rename_i hs
      rcases Std.ExtTreeSet.mem_union_iff.1 ht with ht | ht
      · exact Or.inl (h.first s t ht)
      · exact Or.inr ⟨h.nullable s hs, ih ht⟩
    · exact Or.inl (h.first s t ht)

/-- The equations of a rule keep an analysis sound. -/
lemma Sound.applyRule {a : Analysis} (h : Sound ps kinds a) {r : Rule} (hr : (r.lhs, r.rhs) ∈ ps) :
    Sound ps kinds (a.applyRule r) := by
  have hlhs (hall : a.allNullable r.rhs = true) : Nullable ps r.lhs :=
    .of_production hr (h.allNullable hall)
  have hmark : Sound ps kinds (a.markRule r) := by
    unfold markRule
    split
    · rename_i hall
      refine ⟨fun s hs => ?_, fun s t ht => h.first s t ?_⟩
      · rcases (nullable_markNullable a r.lhs s).1 hs with hs | ⟨rfl, -⟩
        · exact h.nullable s hs
        · exact hlhs hall
      · rwa [first_markNullable] at ht
    · exact h
  refine ⟨fun s hs => ?_, fun s t ht => ?_⟩
  · rcases (nullable_applyRule a r s).1 hs with hs | ⟨hall, rfl, -⟩
    · exact h.nullable s hs
    · exact hlhs hall
  · rcases (mem_first_applyRule a r s t).1 ht with hfirst | ⟨⟨rfl, -⟩, hbody⟩
    · exact h.first s t hfirst
    · exact .expand hr (hmark.firstOfAll hbody)

/-- Passes keep an analysis sound. -/
lemma Sound.pass {a : Analysis} (h : Sound ps kinds a) {rules : List Rule}
    (hrules : ∀ r ∈ rules, (r.lhs, r.rhs) ∈ ps) : Sound ps kinds (pass rules a) := by
  unfold Analysis.pass
  induction rules generalizing a with
  | nil => exact h
  | cons r rules ih =>
    exact ih (h.applyRule (hrules r List.mem_cons_self)) fun q hq =>
      hrules q (List.mem_cons_of_mem r hq)

/-! ### Everything true is recorded -/

/-- The analysis satisfies the equations of the rules, and knows that terminals begin with themselves. -/
structure Complete (rules : List Rule) (kinds : Kinds) (a : Analysis) : Prop where
  nullable : ∀ r ∈ rules, a.allNullable r.rhs = true → a.nullable r.lhs = true
  first : ∀ r ∈ rules, ∀ t ∈ a.firstOfAll r.rhs, t ∈ a.first r.lhs
  terminal : ∀ t, kinds.IsTerminal t → t ∈ a.first t

/-- An analysis that a pass leaves alone satisfies the equations of its rules. -/
lemma complete_of_pass_eq {rules : List Rule} {a : Analysis} (hpass : pass rules a = a)
    (hfacts : ∀ r ∈ rules, r.lhs ∈ a.facts) (hterminal : ∀ t, kinds.IsTerminal t → t ∈ a.first t) :
    Complete rules kinds a := by
  refine ⟨fun r hr hall => ?_, fun r hr t ht => ?_, hterminal⟩
  · obtain ⟨b, hab, hb⟩ := exists_applyRule_below_pass hr a
    have hmem : r.lhs ∈ b.facts := (hab.facts r.lhs).2 (hfacts r hr)
    rw [← hpass]
    refine hb.nullable r.lhs ((nullable_applyRule b r r.lhs).2 (Or.inr ⟨?_, rfl, hmem⟩))
    exact hab.allNullable hall
  · obtain ⟨b, hab, hb⟩ := exists_applyRule_below_pass hr a
    have hmem : r.lhs ∈ b.facts := (hab.facts r.lhs).2 (hfacts r hr)
    rw [← hpass]
    refine hb.first r.lhs t ((mem_first_applyRule b r r.lhs t).2 (Or.inr ⟨⟨rfl, hmem⟩, ?_⟩))
    exact (hab.trans (below_markRule b r)).firstOfAll ht

variable {rules : List Rule}

/-- A complete analysis records every nullable symbol. -/
lemma Complete.nullable_of {a : Analysis} (h : Complete rules kinds a) {s : Symbol}
    (hs : Nullable (productionsOf rules) s) : a.nullable s = true := by
  induction hs with
  | of_production hp _ ih =>
    obtain ⟨r, hr, heq⟩ := List.mem_map.1 hp
    obtain ⟨rfl, rfl⟩ := Prod.mk.inj heq
    exact h.nullable r hr (List.all_eq_true.2 ih)

/-- A complete analysis records every terminal that begins a body. -/
lemma Complete.firstOfAll_of {a : Analysis} (h : Complete rules kinds a) {body : Body} {t : Symbol}
    (ht : Starts (productionsOf rules) kinds body t) : t ∈ a.firstOfAll body := by
  have mem_cons {s : Symbol} {rest : Body} (hs : t ∈ a.first s) : t ∈ a.firstOfAll (s :: rest) := by
    unfold Analysis.firstOfAll
    split
    · exact Std.ExtTreeSet.mem_union_iff.2 (Or.inl hs)
    · exact hs
  induction ht with
  | terminal ht => exact mem_cons (h.terminal _ ht)
  | expand hp _ ih =>
    obtain ⟨r, hr, heq⟩ := List.mem_map.1 hp
    obtain ⟨rfl, rfl⟩ := Prod.mk.inj heq
    exact mem_cons (h.first r hr _ (ih mem_cons))
  | skip hx _ ih =>
    unfold Analysis.firstOfAll
    rw [if_pos (h.nullable_of hx)]
    exact Std.ExtTreeSet.mem_union_iff.2 (Or.inr (ih mem_cons))

/-! ### The computed analysis -/

/-- The analysis is exact: it records the nullable symbols, the terminals that begin each body, and nothing
else. -/
structure Exact (rules : List Rule) (kinds : Kinds) (a : Analysis) : Prop where
  allNullable_iff : ∀ body, a.allNullable body = true ↔ ∀ s ∈ body, Nullable (productionsOf rules) s
  mem_firstOfAll : ∀ body t, t ∈ a.firstOfAll body ↔ Starts (productionsOf rules) kinds body t
  facts : ∀ s, s ∈ a.facts ↔ s ∈ kinds

/-- An analysis that is sound and complete is exact. -/
lemma Sound.exact {a : Analysis} (hs : Sound (productionsOf rules) kinds a)
    (hc : Complete rules kinds a) (hfacts : ∀ s, s ∈ a.facts ↔ s ∈ kinds) : Exact rules kinds a where
  allNullable_iff _ :=
    ⟨hs.allNullable, fun h => List.all_eq_true.2 fun s hmem => hc.nullable_of (h s hmem)⟩
  mem_firstOfAll _ _ := ⟨hs.firstOfAll, hc.firstOfAll_of⟩
  facts := hfacts

/-- Before any rule is seen a terminal begins with itself, and nothing else is recorded. -/
lemma mem_first_ofKinds (kinds : Kinds) (s t : Symbol) :
    t ∈ (ofKinds kinds).first s ↔ t = s ∧ kinds.IsTerminal s := by
  unfold first ofKinds Kinds.IsTerminal
  rw [Std.ExtTreeMap.getElem?_map]
  cases kinds[s]? with
  | none => simp
  | some kind =>
    cases kind with
    | terminal => simpa using eq_comm
    | nonterminal => simp

/-- Before any rule is seen no symbol is nullable. -/
lemma nullable_ofKinds (kinds : Kinds) (s : Symbol) : (ofKinds kinds).nullable s = false := by
  unfold nullable ofKinds
  rw [Std.ExtTreeMap.getElem?_map]
  cases kinds[s]? <;> rfl

/-- The computation succeeds only when all the symbols of the rules have kinds, and then its outcome is
exact. -/
theorem exact_of_compute {start eof : Symbol} {a : Analysis} {grew : Bool}
    (h : (ofKinds kinds).compute start eof rules = .ok (a, grew)) : Exact rules kinds a := by
  unfold compute at h
  split at h
  · simp at h
  rename_i hclassified
  obtain ⟨⟨b, count⟩, hsettle, h⟩ := bind_eq_ok.1 h
  obtain ⟨rfl, -⟩ := Prod.mk.inj (Except.ok.inj h)
  have hkinds (s : Symbol) : s ∈ (ofKinds kinds).facts ↔ s ∈ kinds := Std.ExtTreeMap.mem_map
  have hlhs : ∀ r ∈ rules, r.lhs ∈ kinds := by
    intro r hr
    have hall := List.find?_eq_none.1 hclassified r.lhs
      (List.mem_cons_of_mem _ (List.mem_flatMap.2 ⟨r, hr, List.mem_cons_self⟩))
    rw [← hkinds]
    simpa using hall
  -- everything about the outcome that passes preserve
  have hinv : Sound (productionsOf rules) kinds b ∧
      Below ((ofKinds kinds).addFollow start {eof}) b := by
    refine settle_preserves (P := fun x => Sound (productionsOf rules) kinds x ∧
      Below ((ofKinds kinds).addFollow start {eof}) x) ?_ ⟨⟨?_, ?_⟩, .refl _⟩ hsettle
    · rintro x y changed ⟨hsound, hbelow⟩ hstep
      obtain ⟨rfl, -⟩ := Prod.mk.inj (Except.ok.inj hstep)
      exact ⟨hsound.pass fun r hr => List.mem_map.2 ⟨r, hr, rfl⟩, hbelow.trans (below_pass rules x)⟩
    · intro s hs
      rw [nullable_addFollow, nullable_ofKinds] at hs
      exact absurd hs (by simp)
    · intro s t ht
      rw [first_addFollow, mem_first_ofKinds] at ht
      obtain ⟨rfl, hterminal⟩ := ht
      exact .terminal hterminal
  have hfacts (s : Symbol) : s ∈ b.facts ↔ s ∈ kinds :=
    (hinv.2.facts s).trans ((mem_facts_modify _ _ _ _).trans (hkinds s))
  have hfixed : pass rules b = b := by
    obtain ⟨c, hc⟩ := exists_unchanged_of_settle hsettle
    obtain ⟨rfl, hunchanged⟩ := Prod.mk.inj (Except.ok.inj hc)
    have hcb : pass rules c = c := by simpa using hunchanged
    rw [hcb, hcb]
  refine hinv.1.exact (complete_of_pass_eq hfixed (fun r hr => (hfacts r.lhs).2 (hlhs r hr)) ?_) hfacts
  intro t ht
  refine hinv.2.first t t ?_
  rw [first_addFollow]
  exact (mem_first_ofKinds kinds t t).2 ⟨rfl, ht⟩

end Analysis

end Lalr
