import Lalr.Proofs.Saturation

/-!
# The analysis describes the derivations

`Analysis.compute` is exact about the nullable symbols and about the terminals that begin each symbol.  Here the
same is proved of the terminals that follow a symbol, and the three are put together in terms of derivations.

A terminal can follow a symbol when it stands right behind it in a string that some declared symbol derives, and
the end of input can when a string derived from the start symbol ends with the symbol (`CanFollow`).  Everything
that a pass records is of this kind.  Conversely, the outcome satisfies the equations of the rules, and then a
derivation, step by step, only brings symbols together that the equations have brought together already: whatever
begins the rest of a derived string behind a symbol is recorded as following it, and behind a nullable rest so is
whatever follows the symbol that everything was derived from (`Analysis.FollowClosed.of_derives`).

Nothing is asked of the rules but that their symbols are declared.  Terminals may have rules, symbols may derive no
terminals or not be reachable, and the end of input may be any symbol.
-/

namespace Lalr

/-- An element of a joined list stands in the first part or in the second. -/
lemma exists_of_append_eq {α : Type} {u v before rest : List α} {x : α} (h : u ++ v = before ++ x :: rest) :
    (∃ inner, u = before ++ x :: inner ∧ rest = inner ++ v) ∨
      ∃ inner, before = u ++ inner ∧ v = inner ++ x :: rest := by
  rcases List.append_eq_append_iff.1 h with hsecond | ⟨inner, hu, hrest⟩
  · exact Or.inr hsecond
  · cases inner with
    | nil => exact Or.inr ⟨[], by simpa using hu.symm, by simpa using hrest.symm⟩
    | cons y inner =>
      obtain ⟨rfl, rfl⟩ := List.cons.inj hrest
      exact Or.inl ⟨inner, hu, rfl⟩

/-- The symbol `t` can stand right behind `X`: as a terminal in a string that a declared symbol derives, or as the
end of input behind a string that the start symbol derives. -/
def CanFollow (ps : List (Symbol × Body)) (kinds : Kinds) (start eof X t : Symbol) : Prop :=
  (kinds.IsTerminal t ∧ ∃ A ∈ kinds, ∃ before after, Derives ps [A] (before ++ X :: t :: after)) ∨
    t = eof ∧ ∃ before, Derives ps [start] (before ++ [X])

namespace CanFollow

variable {ps : List (Symbol × Body)} {kinds : Kinds} {start eof A X t : Symbol} {before rest : Body}

/-- What begins the rest of a body behind a symbol can follow it. -/
lemma of_starts (hp : (A, before ++ X :: rest) ∈ ps) (hA : A ∈ kinds) (h : Starts ps kinds rest t) :
    CanFollow ps kinds start eof X t := by
  obtain ⟨after, hafter⟩ := h.exists_derives
  refine Or.inl ⟨h.isTerminal, A, hA, before, after, ?_⟩
  have hrest := hafter.inside (before ++ [X]) []
  simp only [List.append_nil, List.append_assoc, List.singleton_append] at hrest
  exact .head (Rewrites.of_production hp) hrest

/-- What can follow the left-hand side can follow each symbol of the body with a nullable rest behind it. -/
lemma of_lhs (hp : (A, before ++ X :: rest) ∈ ps) (hrest : ∀ s ∈ rest, Nullable ps s)
    (h : CanFollow ps kinds start eof A t) : CanFollow ps kinds start eof X t := by
  have hA : Derives ps [A] (before ++ [X]) := by
    have hnull := (forall_nullable_iff.1 hrest).inside (before ++ [X]) []
    simp only [List.append_nil, List.append_assoc, List.singleton_append] at hnull
    exact .head (Rewrites.of_production hp) hnull
  rcases h with ⟨ht, B, hB, left, right, hderives⟩ | ⟨rfl, left, hderives⟩
  · have hinside : Derives ps (left ++ A :: t :: right) (left ++ before ++ X :: t :: right) := by
      simpa using hA.inside left (t :: right)
    exact Or.inl ⟨ht, B, hB, left ++ before, right, hderives.trans hinside⟩
  · have hinside : Derives ps (left ++ [A]) (left ++ before ++ [X]) := by
      simpa using hA.inside left []
    exact Or.inr ⟨rfl, left ++ before, hderives.trans hinside⟩

/-- The end of input can follow the start symbol. -/
lemma eof_start : CanFollow ps kinds start eof start eof := Or.inr ⟨rfl, [], .refl⟩

end CanFollow

namespace Analysis

/-! ### What the updates record -/

/-- An update that does not look at what follows leaves it as it is. -/
lemma follow_modify (a : Analysis) (s x : Symbol) {f : Facts → Facts} (hf : ∀ y, (f y).follow = y.follow) :
    follow ⟨a.facts.modify s f⟩ x = a.follow x := by
  unfold follow
  rw [getElem?_facts_modify]
  cases a.facts[x]? with
  | none => rfl
  | some y => by_cases hx : x = s <;> simp [hx, hf]

/-- Adding terminals that follow adds them to the symbol, if it has facts, and to no other. -/
lemma mem_follow_addFollow (a : Analysis) (s x t : Symbol) (set : SymbolSet) :
    t ∈ (a.addFollow s set).follow x ↔ t ∈ a.follow x ∨ (x = s ∧ s ∈ a.facts) ∧ t ∈ set := by
  unfold follow addFollow
  rw [getElem?_facts_modify]
  by_cases hx : x = s
  · subst hx
    cases hs : a.facts[x]? with
    | none => simp [Std.ExtTreeMap.mem_iff_isSome_getElem?, hs]
    | some f => simp [Std.ExtTreeMap.mem_iff_isSome_getElem?, hs, Std.ExtTreeSet.mem_union_iff]
  · simp [hx]

/-- The first two equations of a rule say nothing about what follows. -/
lemma follow_beginRule (a : Analysis) (r : Rule) (x : Symbol) : (a.beginRule r).follow x = a.follow x := by
  have hmark : (a.markRule r).follow x = a.follow x := by
    unfold markRule
    split
    · exact follow_modify a r.lhs x fun _ => rfl
    · rfl
  rw [← hmark]
  exact follow_modify (a.markRule r) r.lhs x fun _ => rfl

/-! ### Everything recorded is true -/

variable {ps : List (Symbol × Body)} {kinds : Kinds} {start eof : Symbol}

/-- Everything that the analysis records is true. -/
structure Truthful (ps : List (Symbol × Body)) (kinds : Kinds) (start eof : Symbol) (a : Analysis) : Prop where
  sound : Sound ps kinds a
  follow : ∀ s t, t ∈ a.follow s → CanFollow ps kinds start eof s t

/-- Adding what can follow a symbol keeps an analysis truthful. -/
lemma Truthful.addFollow {a : Analysis} (h : Truthful ps kinds start eof a) {s : Symbol} {set : SymbolSet}
    (hset : ∀ t ∈ set, CanFollow ps kinds start eof s t) : Truthful ps kinds start eof (a.addFollow s set) := by
  refine ⟨⟨fun x hx => h.sound.nullable x ?_, fun x t ht => h.sound.first x t ?_⟩, fun x t ht => ?_⟩
  · rwa [nullable_addFollow] at hx
  · rwa [first_addFollow] at ht
  · rcases (mem_follow_addFollow a s x t set).1 ht with hold | ⟨⟨rfl, -⟩, hnew⟩
    · exact h.follow x t hold
    · exact hset t hnew

/-- Spreading what follows over the end of a body keeps an analysis truthful. -/
lemma Truthful.spreadFollow {a : Analysis} (h : Truthful ps kinds start eof a) {lhs : Symbol} (hlhs : lhs ∈ kinds)
    (before : Body) {body : Body} (hp : (lhs, before ++ body) ∈ ps) :
    Truthful ps kinds start eof (Analysis.spreadFollow lhs body a) := by
  induction body generalizing a before with
  | nil => exact h
  | cons s rest ih =>
    refine ih (h.addFollow fun t ht => ?_) (before ++ [s]) (by simpa using hp)
    rcases Std.ExtTreeSet.mem_union_iff.1 ht with ht | ht
    · exact .of_starts hp hlhs (h.sound.firstOfAll ht)
    · split at ht
      · rename_i hrest
        exact .of_lhs hp (h.sound.allNullable hrest) (h.follow lhs t ht)
      · simp at ht

/-- The equations of a rule keep an analysis truthful. -/
lemma Truthful.applyRule {a : Analysis} (h : Truthful ps kinds start eof a) {r : Rule} (hlhs : r.lhs ∈ kinds)
    (hr : (r.lhs, r.rhs) ∈ ps) : Truthful ps kinds start eof (a.applyRule r) := by
  -- spreading does not touch what the first two equations have recorded
  have hbegin : Truthful ps kinds start eof (a.beginRule r) := by
    obtain ⟨hnullable, hfirst⟩ := h.sound.applyRule hr
    obtain ⟨hkeeps, hkeeps', -⟩ := spreadFollow_facts r.lhs r.rhs (a.beginRule r)
    refine ⟨⟨fun s hs => hnullable s ?_, fun s t ht => hfirst s t ?_⟩, fun s t ht => h.follow s t ?_⟩
    · exact (hkeeps s).trans hs
    · exact (hkeeps' s).symm ▸ ht
    · rwa [follow_beginRule] at ht
  exact hbegin.spreadFollow hlhs [] hr

/-- Passes keep an analysis truthful. -/
lemma Truthful.pass {a : Analysis} (h : Truthful ps kinds start eof a) {rules : List Rule}
    (hrules : ∀ r ∈ rules, r.lhs ∈ kinds ∧ (r.lhs, r.rhs) ∈ ps) :
    Truthful ps kinds start eof (Analysis.pass rules a) := by
  unfold Analysis.pass
  induction rules generalizing a with
  | nil => exact h
  | cons r rules ih =>
    obtain ⟨hlhs, hr⟩ := hrules r List.mem_cons_self
    exact ih (h.applyRule hlhs hr) fun q hq => hrules q (List.mem_cons_of_mem r hq)

/-! ### The outcome satisfies the equations -/

/-- What follows a symbol continues to follow it when the analysis grows. -/
lemma Grows.mem_follow {a b : Analysis} (h : Grows a b) {s t : Symbol} (ht : t ∈ a.follow s) :
    t ∈ b.follow s := by
  have hs := h s
  unfold follow at ht ⊢
  revert hs ht
  generalize a.facts[s]? = f
  generalize b.facts[s]? = g
  rintro ht (hfg | -)
  · exact hfg.follow t ht
  · exact ht

/-- Two analyses that say all that the other one says are the same. -/
lemma Grows.antisymm {a b : Analysis} (hab : Grows a b) (hba : Grows b a) : a = b := by
  obtain ⟨facts⟩ := a
  obtain ⟨facts'⟩ := b
  refine congrArg Analysis.mk (Std.ExtTreeMap.ext_getElem? fun s => ?_)
  have hfg := hab s
  have hgf := hba s
  revert hfg hgf
  change Option.Rel Facts.Le facts[s]? facts'[s]? → Option.Rel Facts.Le facts'[s]? facts[s]? → _
  generalize facts[s]? = f
  generalize facts'[s]? = g
  rintro (hfg | -) hgf
  · cases hgf with
    | some hgf => rw [hfg.eq_of_weight_le hgf.weight_le]
  · rfl

/-- An analysis that a pass leaves alone is left alone by each of the rules. -/
lemma applyRule_eq_of_pass_eq {rules : List Rule} {a : Analysis} (hpass : pass rules a = a) {r : Rule}
    (hr : r ∈ rules) : a.applyRule r = a := by
  obtain ⟨before, after, rfl⟩ := List.append_of_mem hr
  have hsplit : pass after ((pass before a).applyRule r) = a := by
    simpa [pass] using hpass
  have hbefore : pass before a = a := by
    refine Grows.antisymm ?_ (grows_pass before a)
    have hgrows := (grows_applyRule (pass before a) r).trans (grows_pass after _)
    rwa [hsplit] at hgrows
  rw [hbefore] at hsplit
  refine Grows.antisymm ?_ (grows_applyRule a r)
  have hgrows := grows_pass after (a.applyRule r)
  rwa [hsplit] at hgrows

/-- Where spreading what follows changes nothing, each symbol of the body is followed by the beginnings of the rest
and, when the rest is nullable, by what follows the left-hand side. -/
lemma mem_follow_of_spreadFollow_eq {a : Analysis} {lhs : Symbol} {body : Body}
    (h : spreadFollow lhs body a = a) (hbody : ∀ s ∈ body, s ∈ a.facts) {before rest : Body} {s : Symbol}
    (hsplit : body = before ++ s :: rest) {t : Symbol}
    (ht : t ∈ a.firstOfAll rest ∨ a.allNullable rest = true ∧ t ∈ a.follow lhs) : t ∈ a.follow s := by
  induction body generalizing before with
  | nil => exact absurd hsplit (by simp)
  | cons x body ih =>
    rw [spreadFollow] at h
    set added := a.firstOfAll body ∪ if a.allNullable body = true then a.follow lhs else ∅ with hadded
    have hadd : a.addFollow x added = a := by
      refine Grows.antisymm ?_ (grows_addFollow a x added)
      have hgrows := grows_spreadFollow lhs body (a.addFollow x added)
      rwa [h] at hgrows
    cases before with
    | nil =>
      obtain ⟨rfl, rfl⟩ := List.cons.inj hsplit
      rw [← hadd]
      refine (mem_follow_addFollow a x x t added).2 (Or.inr ⟨⟨rfl, hbody x List.mem_cons_self⟩, ?_⟩)
      rw [hadded, Std.ExtTreeSet.mem_union_iff]
      exact ht.imp id fun ⟨hnull, hfollow⟩ => by rwa [if_pos hnull]
    | cons y before =>
      rw [hadd] at h
      exact ih h (fun s hs => hbody s (List.mem_cons_of_mem x hs)) (List.cons.inj hsplit).2

/-- What follows satisfies the equations of the productions, the start symbol being followed by the end of input. -/
structure FollowClosed (ps : List (Symbol × Body)) (kinds : Kinds) (start eof : Symbol) (a : Analysis) : Prop where
  starts : ∀ {A : Symbol} {before rest : Body} {s t : Symbol}, (A, before ++ s :: rest) ∈ ps →
    Starts ps kinds rest t → t ∈ a.follow s
  inherits : ∀ {A : Symbol} {before rest : Body} {s t : Symbol}, (A, before ++ s :: rest) ∈ ps →
    (∀ x ∈ rest, Nullable ps x) → t ∈ a.follow A → t ∈ a.follow s
  eof_mem : eof ∈ a.follow start

/-- An exact analysis that a pass leaves alone satisfies the equations. -/
lemma followClosed_of_pass_eq {rules : List Rule} {a : Analysis} (hexact : Exact rules kinds a)
    (hpass : pass rules a = a) (hrules : ∀ r ∈ rules, ∀ s ∈ r.rhs, s ∈ a.facts) (heof : eof ∈ a.follow start) :
    FollowClosed (productionsOf rules) kinds start eof a := by
  have hspread {r : Rule} (hr : r ∈ rules) : spreadFollow r.lhs r.rhs a = a := by
    have hrule : spreadFollow r.lhs r.rhs (a.beginRule r) = a := applyRule_eq_of_pass_eq hpass hr
    have hbegin : a.beginRule r = a := by
      refine Grows.antisymm ?_ (grows_beginRule a r)
      have hgrows := grows_spreadFollow r.lhs r.rhs (a.beginRule r)
      rwa [hrule] at hgrows
    rwa [hbegin] at hrule
  refine ⟨fun {A before rest s t} hp ht => ?_, fun {A before rest s t} hp hnull ht => ?_, heof⟩
  · obtain ⟨r, hr, heq⟩ := List.mem_map.1 hp
    obtain ⟨rfl, hrhs⟩ := Prod.mk.inj heq
    exact mem_follow_of_spreadFollow_eq (hspread hr) (hrules r hr) hrhs
      (Or.inl ((hexact.mem_firstOfAll rest t).2 ht))
  · obtain ⟨r, hr, heq⟩ := List.mem_map.1 hp
    obtain ⟨rfl, hrhs⟩ := Prod.mk.inj heq
    exact mem_follow_of_spreadFollow_eq (hspread hr) (hrules r hr) hrhs
      (Or.inr ⟨(hexact.allNullable_iff rest).2 hnull, ht⟩)

/-! ### Everything true is recorded -/

/-- In a string derived from `A`, a symbol is followed by the beginnings of the rest behind it and, when that rest
is nullable, by what follows `A`. -/
lemma FollowClosed.of_derives {a : Analysis} (h : FollowClosed ps kinds start eof a) {A : Symbol} {w : Body}
    (hw : Derives ps [A] w) (before rest : Body) {X : Symbol} (hsplit : w = before ++ X :: rest) {t : Symbol}
    (ht : Starts ps kinds rest t ∨ (∀ x ∈ rest, Nullable ps x) ∧ t ∈ a.follow A) : t ∈ a.follow X := by
  induction hw generalizing before rest X t with
  | refl =>
    obtain ⟨rfl, rfl, rfl⟩ : before = [] ∧ A = X ∧ rest = [] := by
      cases before <;> simp_all
    rcases ht with ht | ⟨-, ht⟩
    · exact absurd ht not_starts_nil
    · exact ht
  | tail _ hstep ih =>
    obtain ⟨⟨B, ω⟩, hp, left, right, rfl, rfl⟩ := hstep
    -- a rest in which `B` stands begins with what it begins with once `B` has been replaced
    have hback {inner : Body} (hrest : Starts ps kinds (inner ++ ω ++ right) t ∨
        (∀ x ∈ inner ++ ω ++ right, Nullable ps x) ∧ t ∈ a.follow A) :
        Starts ps kinds (inner ++ B :: right) t ∨
          (∀ x ∈ inner ++ B :: right, Nullable ps x) ∧ t ∈ a.follow A := by
      have hrewrites : Rewrites ps (inner ++ B :: right) (inner ++ ω ++ right) := ⟨(B, ω), hp, inner, right, rfl, rfl⟩
      refine hrest.imp (fun hstarts => ?_) fun ⟨hnull, hfollow⟩ => ⟨?_, hfollow⟩
      · obtain ⟨hterminal, after, hafter⟩ := starts_iff_derives.1 hstarts
        exact starts_of_derives hterminal (.head hrewrites hafter)
      · exact forall_nullable_of_derives (.head hrewrites (forall_nullable_iff.1 hnull))
    rcases exists_of_append_eq hsplit with ⟨inner, hfront, rfl⟩ | ⟨inner, rfl, rfl⟩
    · rcases exists_of_append_eq hfront with ⟨inner, rfl, rfl⟩ | ⟨outer, rfl, rfl⟩
      · -- the symbol stands before the body
        exact ih before (inner ++ B :: right) (by simp) (hback ht)
      · -- the symbol stands in the body
        rcases ht with hstarts | ⟨hnull, hfollow⟩
        · rcases starts_append_iff.1 hstarts with hstarts | ⟨hnull, hstarts⟩
          · exact h.starts hp hstarts
          · exact h.inherits hp hnull (ih left right rfl (Or.inl hstarts))
        · obtain ⟨hinner, hright⟩ := List.forall_mem_append.1 hnull
          exact h.inherits hp hinner (ih left right rfl (Or.inr ⟨hright, hfollow⟩))
    · -- the symbol stands behind the body
      exact ih (left ++ B :: inner) rest (by simp) ht

/-- An analysis that is truthful and satisfies the equations records exactly what can follow. -/
lemma FollowClosed.mem_follow_iff {a : Analysis} (h : FollowClosed ps kinds start eof a)
    (htruthful : Truthful ps kinds start eof a) {X t : Symbol} :
    t ∈ a.follow X ↔ CanFollow ps kinds start eof X t := by
  refine ⟨htruthful.follow X t, ?_⟩
  rintro (⟨ht, A, -, before, after, hderives⟩ | ⟨rfl, before, hderives⟩)
  · exact h.of_derives hderives before (t :: after) rfl (Or.inl (.terminal ht))
  · exact h.of_derives hderives before [] rfl (Or.inr ⟨by simp, h.eof_mem⟩)

/-! ### The computed analysis -/

variable {rules : List Rule}

/-- The outcome of the computation is left alone by a pass, and it has every property of the analysis at the start,
with the end of input added, that passes preserve. -/
lemma compute_eq_ok {a b : Analysis} {grew : Bool} (h : a.compute start eof rules = .ok (b, grew)) :
    pass rules b = b ∧
      ∀ {P : Analysis → Prop}, (∀ x, P x → P (pass rules x)) → P (a.addFollow start {eof}) → P b := by
  unfold compute at h
  split at h
  · cases h
  · obtain ⟨⟨c, count⟩, hsettle, h⟩ := bind_eq_ok.1 h
    obtain ⟨rfl, -⟩ := Prod.mk.inj (Except.ok.inj h)
    constructor
    · obtain ⟨x, hx⟩ := exists_unchanged_of_settle hsettle
      obtain ⟨rfl, hunchanged⟩ := Prod.mk.inj (Except.ok.inj hx)
      have hfixed : pass rules x = x := by simpa using hunchanged
      rw [hfixed, hfixed]
    · intro P hstep hstart
      refine settle_preserves (fun x y changed hx hy => ?_) hstart hsettle
      obtain ⟨rfl, -⟩ := Prod.mk.inj (Except.ok.inj hy)
      exact hstep x hx

/-- The analysis of rules over declared symbols is found; it is exact about nullable symbols and beginnings, and it
records exactly what can follow. -/
lemma exists_compute_exact (eof : Symbol) (hstart : start ∈ kinds)
    (hrules : ∀ r ∈ rules, ∀ s ∈ r.lhs :: r.rhs, s ∈ kinds) :
    ∃ a grew, (ofKinds kinds).compute start eof rules = .ok (a, grew) ∧ Exact rules kinds a ∧
      ∀ X t, t ∈ a.follow X ↔ CanFollow (productionsOf rules) kinds start eof X t := by
  have hfacts (s : Symbol) : s ∈ (ofKinds kinds).facts ↔ s ∈ kinds := Std.ExtTreeMap.mem_map
  have hclassified : (ofKinds kinds).unclassified? start rules = none := by
    unfold unclassified?
    rw [List.find?_eq_none]
    intro s hs
    have hmem : s ∈ kinds := by
      rcases List.mem_cons.1 hs with rfl | hs
      · exact hstart
      · obtain ⟨r, hr, hs⟩ := List.mem_flatMap.1 hs
        exact hrules r hr s hs
    simpa using (hfacts s).2 hmem
  obtain ⟨a, grew, hcompute⟩ := exists_compute_eq_ok hclassified eof
  have hexact := exact_of_compute hcompute
  obtain ⟨hpass, hpreserves⟩ := compute_eq_ok hcompute
  have hnone (s t : Symbol) : t ∉ (ofKinds kinds).follow s := by
    unfold follow ofKinds
    rw [Std.ExtTreeMap.getElem?_map]
    cases kinds[s]? <;> simp
  have hbare : Truthful (productionsOf rules) kinds start eof (ofKinds kinds) := by
    refine ⟨⟨fun s hs => ?_, fun s t ht => ?_⟩, fun s t ht => absurd ht (hnone s t)⟩
    · rw [nullable_ofKinds] at hs
      cases hs
    · obtain ⟨rfl, hterminal⟩ := (mem_first_ofKinds kinds s t).1 ht
      exact .terminal hterminal
  have htruthful : Truthful (productionsOf rules) kinds start eof a := by
    refine hpreserves (fun x hx => hx.pass fun r hr => ?_) (hbare.addFollow fun t ht => ?_)
    · exact ⟨hrules r hr r.lhs List.mem_cons_self, List.mem_map.2 ⟨r, hr, rfl⟩⟩
    · rw [SymbolSet.mem_singleton.1 ht]
      exact .eof_start
  have heof : eof ∈ a.follow start := by
    refine hpreserves (P := fun x => eof ∈ x.follow start) (fun x hx => ?_) ?_
    · exact (grows_pass rules x).mem_follow hx
    · exact (mem_follow_addFollow _ _ _ _ _).2
        (Or.inr ⟨⟨rfl, (hfacts start).2 hstart⟩, SymbolSet.mem_singleton.2 rfl⟩)
  have hclosed := followClosed_of_pass_eq hexact hpass
    (fun r hr s hs => (hexact.facts s).2 (hrules r hr s (List.mem_cons_of_mem _ hs))) heof
  exact ⟨a, grew, hcompute, hexact, fun X t => hclosed.mem_follow_iff htruthful⟩

/-- A symbol with facts is looked up successfully. -/
lemma exists_lookup_eq_ok {a : Analysis} {s : Symbol} (h : s ∈ a.facts) :
    ∃ facts, a.lookup s = .ok facts ∧ a.nullable s = facts.nullable ∧ a.first s = facts.first ∧
      a.follow s = facts.follow := by
  rw [Std.ExtTreeMap.mem_iff_isSome_getElem?] at h
  obtain ⟨facts, hfacts⟩ := Option.isSome_iff_exists.1 h
  refine ⟨facts, ?_, ?_, ?_, ?_⟩
  · simp [lookup, hfacts]
  · simp [nullable, hfacts]
  · simp [first, hfacts]
  · simp [follow, hfacts]

/-- The beginnings of a body whose symbols have facts are found. -/
lemma firstOfAll?_eq_ok {a : Analysis} {body : Body} (h : ∀ s ∈ body, s ∈ a.facts) :
    a.firstOfAll? body = .ok (a.firstOfAll body) := by
  unfold firstOfAll?
  split
  · rename_i s hs
    rw [if_pos (h s (List.mem_of_find?_eq_some hs))]
  · rfl

/-- An exact analysis records the terminals that begin a symbol. -/
lemma Exact.mem_first_iff {a : Analysis} (h : Exact rules kinds a) {s t : Symbol} :
    t ∈ a.first s ↔ Starts (productionsOf rules) kinds [s] t := by
  rw [← h.mem_firstOfAll, firstOfAll]
  split
  · simp [firstOfAll]
  · rfl

/-- An exact analysis records the nullable symbols. -/
lemma Exact.nullable_iff {a : Analysis} (h : Exact rules kinds a) {s : Symbol} :
    a.nullable s = true ↔ Nullable (productionsOf rules) s := by
  simpa [allNullable] using h.allNullable_iff [s]

/-- The analysis of rules over declared symbols is found, and it describes their derivations.  A declared symbol is
nullable when it derives the empty string, it begins with the terminals that begin the strings it derives, and it
is followed by the terminals that stand behind it in a string derived from a declared symbol, as well as by the end
of input when it ends a string derived from the start symbol.  A row of declared symbols begins with the terminals
that begin the strings it derives. -/
theorem compute_describes_derivations (eof : Symbol) (hstart : start ∈ kinds)
    (hrules : ∀ r ∈ rules, ∀ s ∈ r.lhs :: r.rhs, s ∈ kinds) :
    ∃ a grew, (ofKinds kinds).compute start eof rules = .ok (a, grew) ∧
      (∀ X ∈ kinds, ∃ facts, a.lookup X = .ok facts ∧
        (facts.nullable = true ↔ Derives (productionsOf rules) [X] []) ∧
        (∀ t, t ∈ facts.first ↔
          kinds.IsTerminal t ∧ ∃ rest, Derives (productionsOf rules) [X] (t :: rest)) ∧
        ∀ t, t ∈ facts.follow ↔
          (kinds.IsTerminal t ∧ ∃ A ∈ kinds, ∃ before after,
            Derives (productionsOf rules) [A] (before ++ X :: t :: after)) ∨
          t = eof ∧ ∃ before, Derives (productionsOf rules) [start] (before ++ [X])) ∧
      ∀ body : Body, (∀ s ∈ body, s ∈ kinds) → ∃ set, a.firstOfAll? body = .ok set ∧
        ∀ t, t ∈ set ↔ kinds.IsTerminal t ∧ ∃ rest, Derives (productionsOf rules) body (t :: rest) := by
  obtain ⟨a, grew, hcompute, hexact, hfollow⟩ := exists_compute_exact eof hstart hrules
  refine ⟨a, grew, hcompute, fun X hX => ?_, fun body hbody => ?_⟩
  · obtain ⟨facts, hlookup, hnullable, hfirst, hfacts⟩ := exists_lookup_eq_ok ((hexact.facts X).2 hX)
    refine ⟨facts, hlookup, ?_, fun t => ?_, fun t => ?_⟩
    · rw [← hnullable, hexact.nullable_iff, nullable_iff_derives]
    · rw [← hfirst, hexact.mem_first_iff, starts_iff_derives]
    · rw [← hfacts]
      exact hfollow X t
  · refine ⟨_, firstOfAll?_eq_ok fun s hs => (hexact.facts s).2 (hbody s hs), fun t => ?_⟩
    rw [hexact.mem_firstOfAll, starts_iff_derives]

/-- In the grammar of nested pairs `S` is nullable, it is followed by the closing token, which stands behind it
inside of a pair, and it is followed by the end of input. -/
theorem compute_describes_derivations_nested :
    ∃ a grew facts,
      (ofKinds Grammar.nested.classification).compute ⟨0⟩ Symbol.eof Grammar.nested.rules.toList = .ok (a, grew) ∧
      a.lookup ⟨1⟩ = .ok facts ∧ facts.nullable = true ∧ ⟨11⟩ ∈ facts.follow ∧ Symbol.eof ∈ facts.follow := by
  have hstart : (⟨0⟩ : Symbol) ∈ Grammar.nested.classification := by decide +kernel
  have hS : (⟨1⟩ : Symbol) ∈ Grammar.nested.classification := by decide +kernel
  have hrules : ∀ r ∈ Grammar.nested.rules.toList, ∀ s ∈ r.lhs :: r.rhs, s ∈ Grammar.nested.classification := by
    decide +kernel
  obtain ⟨a, grew, hcompute, hfacts, -⟩ := compute_describes_derivations Symbol.eof hstart hrules
  obtain ⟨facts, hlookup, hnullable, -, hfollow⟩ := hfacts ⟨1⟩ hS
  refine ⟨a, grew, facts, hcompute, hlookup, hnullable.2 ?_, (hfollow _).2 (Or.inl ?_), (hfollow _).2 (Or.inr ?_)⟩
  · exact .single (Rewrites.of_production (by decide +kernel))
  · refine ⟨?_, ⟨1⟩, hS, [⟨10⟩], [], .single (Rewrites.of_production (by decide +kernel))⟩
    show Grammar.nested.classification[(⟨11⟩ : Symbol)]? = some .terminal
    decide +kernel
  · exact ⟨rfl, [], .single (Rewrites.of_production (by decide +kernel))⟩

end Analysis

end Lalr
