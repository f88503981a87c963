import Lalr.Proofs.Contents
import Lalr.Proofs.ItemOrder

/-!
# Warnings about conflicts

The construction of a table reports the conflicts that it decides.  When an item calls for a reduction in a cell that
shifts or accepts already, a warning names the state and the rule that is never reduced; reductions that are kept
together are counted in one warning at the end.

What is said about a cell depends on the order of the items (`Resolution.Records`), because accepting replaces what
is in a cell without a word.  A shift at the end of input is dropped silently, and so is a reduction whose item
stands before the augmenting item (`Automaton.Silenced`).  Both take a grammar in which the end of input or the
initial symbol occurs in a string that the start symbol derives.  For all other grammars every candidate that a cell
drops is reported, and a construction without warnings is free of conflicts
(`Grammar.dropped_candidates_are_reported`).
-/

namespace Lalr

/-! ### What a cell records -/

namespace Resolution

/-- What is said about the reduction by a rule, given the rules that have been taken before it. -/
def objection (cell : Cell) (target : Option Nat) (before : List Nat) (rule : Rule) : Option Notice :=
  if cell.symbol = Symbol.eof ∧ Augmented.augmentingRule ∈ before then some (.acceptReduce cell.state rule)
  else target.map fun m => .shiftReduce cell.state cell.symbol m rule

/-- The notices of a cell are the objections against the rules taken so far, and reductions that are kept together
have been counted. -/
structure Records (g : Augmented) (cell : Cell) (target : Option Nat) (rules : List Nat) (r : Resolution) :
    Prop where
  mem_notices : ∀ {notice : Notice}, notice ∈ r.notices ↔ ∃ before k, before ++ [k] <+: rules ∧ k ≠ 0 ∧
    ∃ rule, g.rules[k]? = some rule ∧ objection cell target before rule = some notice
  merges_pos : ∀ {set : RuleSet}, r.action = some (.reduceMulti set) → 0 < r.merges

variable {g : Augmented} {cell : Cell} {target : Option Nat} {rules : List Nat} {r r' : Resolution}

/-- A reduction adds the objection against it. -/
lemma Settles.notices_of_reduce (h : Settles target (cell.symbol = Symbol.eof) rules r.action) {rule : Rule}
    {n : Nat} (hr' : r.reduce cell rule n = .ok r') :
    r'.notices = r.notices ++ (objection cell target rules rule).toList := by
  obtain ⟨action, notices, merges⟩ := r
  -- neither accepting nor a shift stands against the reduction
  have hnone (htarget : target = none) (hzero : cell.symbol = Symbol.eof → 0 ∉ rules) :
      objection cell target rules rule = none := by
    rw [objection, if_neg fun hend => hzero hend.1 hend.2, htarget]
    rfl
  unfold Resolution.reduce at hr'
  cases action with
  | none =>
    rw [← Except.ok.inj hr', hnone h.1 fun hend hmem => (h.2 0 hmem).2 hend]
    simp
  | some action =>
    cases action with
    | shift m =>
      rw [← Except.ok.inj hr', objection, if_neg fun hend => h.2 hend.1 hend.2, h.1]
      rfl
    | accept =>
      rw [← Except.ok.inj hr', objection, if_pos ⟨h.1, h.2⟩]
      rfl
    | reduce k =>
      rw [hnone h.1 h.2.1, Option.toList_none, List.append_nil]
      simp only [Action.addReduction?] at hr'
      split_ifs at hr' <;> rw [← Except.ok.inj hr']
    | reduceMulti set =>
      rw [hnone h.1 h.2.1, Option.toList_none, List.append_nil, ← Except.ok.inj hr']
    | goto m => exact h.elim

/-- A reduction that is kept together with others is counted. -/
lemma merges_pos_of_reduce {rule : Rule} {n : Nat} (hr' : r.reduce cell rule n = .ok r') {set : RuleSet}
    (hset : r'.action = some (.reduceMulti set)) : 0 < r'.merges := by
  obtain ⟨action, notices, merges⟩ := r
  unfold Resolution.reduce at hr'
  cases action with
  | none =>
    obtain rfl := Except.ok.inj hr'
    cases hset
  | some action =>
    cases action with
    | shift m | accept =>
      obtain rfl := Except.ok.inj hr'
      cases hset
    | reduce k =>
      simp only [Action.addReduction?] at hr'
      split_ifs at hr' <;> obtain rfl := Except.ok.inj hr'
      · cases hset
      · exact Nat.succ_pos _
    | reduceMulti set' =>
      obtain rfl := Except.ok.inj hr'
      exact Nat.succ_pos _
    | goto m => cases hr'

/-- Before any item is taken there are no notices. -/
lemma records_nil (g : Augmented) (cell : Cell) (target : Option Nat) :
    Records g cell target [] { action := target.map Action.shift } where
  mem_notices := by simp
  merges_pos h := by
    obtain ⟨m, -, heq⟩ := Option.map_eq_some_iff.1 h
    cases heq

/-- The objections against one more rule. -/
lemma exists_prefix_concat {n : Nat} {P : List Nat → Nat → Prop} :
    (∃ before k, before ++ [k] <+: rules ++ [n] ∧ P before k) ↔
      (∃ before k, before ++ [k] <+: rules ∧ P before k) ∨ P rules n := by
  constructor
  · rintro ⟨before, k, hbegins, hP⟩
    rcases List.prefix_concat_iff.1 hbegins with heq | hbegins
    · obtain ⟨rfl, hk⟩ := List.append_inj' heq rfl
      obtain rfl := List.singleton_inj.1 hk
      exact Or.inr hP
    · exact Or.inl ⟨before, k, hbegins, hP⟩
  · rintro (⟨before, k, hbegins, hP⟩ | hP)
    · exact ⟨before, k, hbegins.trans (List.prefix_append _ _), hP⟩
    · exact ⟨rules, n, List.prefix_refl _, hP⟩

/-- Taking account of a complete item keeps the records. -/
lemma Records.consider (h : Records g cell target rules r)
    (hsettles : Settles target (cell.symbol = Symbol.eof) rules r.action) {i : Item}
    (hr' : Resolution.consider g cell r i = .ok r') : Records g cell target (rules ++ [i.core.rule]) r' := by
  unfold Resolution.consider at hr'
  by_cases hrule : i.core.rule = Augmented.augmentingRule
  · -- the augmenting rule adds no notice
    rw [if_pos hrule] at hr'
    have hnotices : r'.notices = r.notices := by
      split_ifs at hr' <;> rw [← Except.ok.inj hr']
    have hmerges {set : RuleSet} (hset : r'.action = some (.reduceMulti set)) : 0 < r'.merges := by
      split_ifs at hr' <;> obtain rfl := Except.ok.inj hr'
      · cases hset
      · exact h.merges_pos hset
    refine ⟨fun {notice} => ?_, hmerges⟩
    rw [hnotices, h.mem_notices, hrule, exists_prefix_concat]
    exact ⟨Or.inl, fun hor => hor.resolve_right fun hzero => hzero.1 rfl⟩
  · rw [if_neg hrule] at hr'
    obtain ⟨rule, hget, hr'⟩ := bind_eq_ok.1 hr'
    have hget : g.rules[i.core.rule]? = some rule := by
      unfold Core.rule? at hget
      split at hget
      · rw [← Except.ok.inj hget]
        assumption
      · cases hget
    refine ⟨fun {notice} => ?_, merges_pos_of_reduce hr'⟩
    rw [hsettles.notices_of_reduce hr', List.mem_append, h.mem_notices, exists_prefix_concat, Option.mem_toList]
    refine or_congr_right ⟨fun hnotice => ⟨hrule, rule, hget, hnotice⟩, ?_⟩
    rintro ⟨-, rule', hget', hnotice⟩
    obtain rfl := Option.some.inj (hget.symm.trans hget')
    exact hnotice

/-- Taking account of several complete items keeps the records. -/
lemma Records.foldlM (h : Records g cell target rules r)
    (hsettles : Settles target (cell.symbol = Symbol.eof) rules r.action) {items : List Item}
    (hitems : ∀ i ∈ items, g.Valid i.core) (hr' : items.foldlM (Resolution.consider g cell) r = .ok r') :
    Records g cell target (rules ++ items.map fun i => i.core.rule) r' := by
  induction items generalizing rules r with
  | nil =>
    obtain rfl := Except.ok.inj hr'
    simpa using h
  | cons i items ih =>
    rw [List.foldlM_cons] at hr'
    obtain ⟨r₁, hr₁, hr'⟩ := bind_eq_ok.1 hr'
    obtain ⟨r₂, hr₂, hsettles₁⟩ := hsettles.consider (hitems i List.mem_cons_self)
    obtain rfl := Except.ok.inj (hr₁.symm.trans hr₂)
    have hrest := ih (h.consider hsettles hr₁) hsettles₁ (fun j hj => hitems j (List.mem_cons_of_mem i hj)) hr'
    simpa using hrest

end Resolution

/-! ### The rules of a cell in order -/

namespace Automaton

/-- The rules of the complete items of a state that have the symbol among their lookaheads, in the order of the
items. -/
def reducingList (g : Augmented) (a : Automaton) (n : Nat) (x : Symbol) : List Nat :=
  ((a.states[n]?.elim [] ItemSet.items).filter fun i =>
    g.rules[i.core.rule]?.any (fun r => i.core.dot == r.rhs.length) && i.lookaheads.contains x).map
      fun i => i.core.rule

variable {g : Augmented} {a : Automaton} {n : Nat} {x : Symbol}

/-- The rules listed are those of the complete items. -/
lemma mem_reducingList {k : Nat} : k ∈ a.reducingList g n x ↔ a.Reducible g n x k := by
  rw [← mem_reducing, reducing, Std.ExtTreeSet.mem_ofList, List.contains_iff_mem]
  rfl

/-- A rule is listed once. -/
lemma Closed.nodup_reducingList (h : a.Closed g) : (a.reducingList g n x).Nodup := by
  unfold reducingList
  cases hs : a.states[n]? with
  | none => exact List.nodup_nil
  | some s =>
    have hdistinct := h.distinct s (Array.mem_of_getElem? hs)
    rw [Option.elim_some]
    refine (hdistinct.of_map.filter _).map_on fun i hi j hj hrule => ?_
    obtain ⟨hi, hcomplete⟩ := List.mem_filter.1 hi
    obtain ⟨hj, hcomplete'⟩ := List.mem_filter.1 hj
    refine List.inj_on_of_nodup_map hdistinct hi hj ?_
    -- the dot stands at the end of the same rule
    simp only [Bool.and_eq_true, Option.any_eq_true, beq_iff_eq] at hcomplete hcomplete'
    obtain ⟨⟨r, hr, hdot⟩, -⟩ := hcomplete
    obtain ⟨⟨r', hr', hdot'⟩, -⟩ := hcomplete'
    rw [hrule] at hr
    obtain rfl := Option.some.inj (hr.symm.trans hr')
    exact congrArg₂ Core.mk hrule (hdot.trans hdot'.symm)

end Automaton

/-! ### The notices of a construction -/

namespace Automaton.Closed

variable {g : Augmented} {a : Automaton} (h : a.Closed g) {resolved : List (Cell × Resolution)}
  (hresolved : g.resolveAll a = .ok resolved)
include h hresolved

/-- The cells of a closed automaton are those of its states and of the symbols with a kind. -/
lemma mem_resolveAll {cell : Cell} {r : Resolution} :
    (cell, r) ∈ resolved ↔ ∃ s, a.states[cell.state]? = some s ∧ ∃ items kind, g.completeItems s = .ok items ∧
      g.kinds[cell.symbol]? = some kind ∧ g.resolve a items cell kind = .ok r := by
  obtain ⟨resolved', hresolved', hmem⟩ := h.exists_resolveAll_eq_ok_and
  obtain rfl := Except.ok.inj (hresolved.symm.trans hresolved')
  exact hmem cell r

/-- A cell of a terminal records what its items call for, in their order. -/
lemma records {cell : Cell} {r : Resolution} (hmem : (cell, r) ∈ resolved)
    (hx : g.kinds.IsTerminal cell.symbol) :
    r.Records g cell (a.goto? cell.state cell.symbol) (a.reducingList g cell.state cell.symbol) := by
  obtain ⟨s, hs, items, kind, hitems, hkind, hr⟩ := (h.mem_resolveAll hresolved).1 hmem
  obtain rfl := Option.some.inj (hkind.symm.trans hx)
  have hvalid : ∀ c, s.Has c → g.Valid c := fun c hc =>
    (h.reaches ⟨s, hs, hc⟩).valid fun _ hk => h.explored.valid hk
  obtain rfl := Except.ok.inj (hitems.symm.trans (completeItems_eq_ok hvalid))
  have hrecords := (Resolution.records_nil g cell (a.goto? cell.state cell.symbol)).foldlM
    (Resolution.settles_nil _ _) (fun i hi => ?_) hr
  · rw [List.nil_append, List.filter_filter] at hrecords
    rw [reducingList, hs, Option.elim_some]
    simpa only [Bool.and_comm] using hrecords
  · exact hvalid _ ⟨i, (List.mem_filter.1 (List.mem_filter.1 hi).1).1, rfl⟩

/-- Only cells of terminals have notices. -/
lemma isTerminal_of_mem_notices {cell : Cell} {r : Resolution} (hmem : (cell, r) ∈ resolved) {notice : Notice}
    (hnotice : notice ∈ r.notices) : g.kinds.IsTerminal cell.symbol := by
  obtain ⟨s, -, items, kind, -, hkind, hr⟩ := (h.mem_resolveAll hresolved).1 hmem
  cases kind with
  | terminal => exact hkind
  | nonterminal =>
    obtain rfl := Except.ok.inj hr
    cases hnotice

end Automaton.Closed

/-- The notices about conflicts are those of the cells, and the count of what has been merged. -/
lemma mem_conflictNotices {resolved : List (Cell × Resolution)} {notice : Notice} :
    notice ∈ conflictNotices resolved ↔ (∃ entry ∈ resolved, notice ∈ entry.2.notices) ∨
      (∃ entry ∈ resolved, 0 < entry.2.merges) ∧
        notice = .reduceReduce (resolved.foldl (fun count entry => count + entry.2.merges) 0) := by
  have hpos : 0 < resolved.foldl (fun count entry => count + entry.2.merges) 0 ↔
      ∃ entry ∈ resolved, 0 < entry.2.merges := by
    have hsum : resolved.foldl (fun count entry => count + entry.2.merges) 0 =
        (resolved.map fun entry => entry.2.merges).sum := by
      rw [List.sum_eq_foldl, List.foldl_map]
    rw [hsum, List.sum_pos_iff_exists_pos_nat]
    simp
  unfold conflictNotices
  rw [List.mem_append, List.mem_flatMap, ← hpos]
  refine or_congr_right ?_
  split_ifs with hmerges <;> simp [hmerges]

/-- The warnings of a construction are the notices about the conflicts in the cells of its automaton, which is the
closed automaton of the grammar. -/
lemma Grammar.exists_of_construct {grammar : Grammar} {g : Augmented} (haugment : grammar.augment = .ok g)
    {verbose : Bool} {c : Construction} (h : grammar.construct verbose = .ok c) :
    ∃ bare m resolved, g.automaton = .ok bare ∧ (bare.withLookaheads m).close g = .ok c.automaton ∧
      g.resolveAll c.automaton = .ok resolved ∧ c.table = g.tableOf resolved ∧
      ∀ notice : Notice, notice.level = .warn → (notice ∈ c.notices ↔ notice ∈ conflictNotices resolved) := by
  obtain ⟨g', hg', h⟩ := bind_eq_ok.1 h
  obtain rfl := Except.ok.inj (haugment.symm.trans hg')
  obtain ⟨c₁, hc₁, h⟩ := bind_eq_ok.1 h
  obtain rfl := Except.ok.inj h
  replace hc₁ : g.construct verbose = .ok c₁ := by
    cases hconstruct : g.construct verbose with
    | error f => simp [hconstruct, Except.mapError] at hc₁
    | ok c => simpa [hconstruct, Except.mapError] using hc₁
  obtain ⟨bare, hbare, hc₁⟩ := bind_eq_ok.1 hc₁
  obtain ⟨transfers, -, hc₁⟩ := bind_eq_ok.1 hc₁
  obtain ⟨⟨m, passes⟩, -, hc₁⟩ := bind_eq_ok.1 hc₁
  obtain ⟨a, ha, hc₁⟩ := bind_eq_ok.1 hc₁
  obtain ⟨resolved, hresolved, hc₁⟩ := bind_eq_ok.1 hc₁
  obtain rfl := Except.ok.inj hc₁
  refine ⟨bare, m, resolved, hbare, ha, hresolved, rfl, fun notice hlevel => ?_⟩
  cases notice with
  | shiftReduce | acceptReduce | reduceReduce => simp
  | automaton loud report => cases loud <;> cases hlevel
  | _ => cases hlevel

/-! ### Candidates that are dropped -/

/-- The notice names the state, and the candidate that its cell drops on the symbol. -/
def Notice.Rejects (n : Nat) (x : Symbol) (α : Action) : Notice → Prop
  | .shiftReduce state symbol _ rule => state = n ∧ symbol = x ∧ α = .reduce rule.index
  | .acceptReduce state rule => state = n ∧ x = Symbol.eof ∧ α = .reduce rule.index
  | _ => False

/-- A notice that names a candidate is a warning. -/
lemma Notice.Rejects.level_eq {n : Nat} {x : Symbol} {α : Action} {notice : Notice} (h : notice.Rejects n x α) :
    notice.level = .warn := by
  cases notice with
  | shiftReduce | acceptReduce => rfl
  | _ => exact h.elim

/-- The cell has the candidate for its action, or among the reductions that it keeps together. -/
def Table.Keeps (t : Table) (n : Nat) (x : Symbol) (α : Action) : Prop :=
  ∃ β, t.action? n x = some β ∧ (β = α ∨ ∃ k, α = .reduce k ∧ β.ReducesBy k)

/-- Accepting replaces the candidate without a word: it is a shift, or a reduction that no shift stands against and
whose item stands before the augmenting item. -/
def Automaton.Silenced (g : Augmented) (a : Automaton) (n : Nat) (x : Symbol) : Action → Prop
  | .shift _ => x = Symbol.eof ∧ Augmented.augmentingRule ∈ a.reducingList g n x
  | .reduce k => x = Symbol.eof ∧ a.goto? n x = none ∧ [k, Augmented.augmentingRule].Sublist (a.reducingList g n x)
  | _ => False

/-- A candidate that its cell drops is a shift that accepting replaces, or a reduction that a shift or accepting
stands against. -/
lemma Table.Fits.cases_of_not_keeps {g : Augmented} {a : Automaton} {t : Table} (h : t.Fits g a)
    (ha : a.Explored g) {n : Nat} {x : Symbol} {α : Action} (hx : g.kinds.IsTerminal x)
    (hα : a.Candidate g n x α) (hdropped : ¬ t.Keeps n x α) :
    (∃ m, α = .shift m ∧ x = Symbol.eof ∧ a.Reducible g n x 0) ∨
      ∃ k, α = .reduce k ∧ k ≠ 0 ∧ a.Reducible g n x k ∧
        (a.goto? n x ≠ none ∨ x = Symbol.eof ∧ a.Reducible g n x 0) := by
  have hsettles := Automaton.settles_content g a n x
  rw [← h.action?_of_isTerminal ha hx] at hsettles
  have hmem {k : Nat} : k ∈ (a.reducing g n x).toList ↔ a.Reducible g n x k := by
    rw [Std.ExtTreeSet.mem_toList, Automaton.mem_reducing]
  cases hα with
  | @shift m hm =>
    refine Or.inl ⟨m, rfl, ?_⟩
    by_contra hnot
    refine hdropped ⟨.shift m, ?_, Or.inl rfl⟩
    rw [h.action?_of_isTerminal ha hx, Automaton.content,
      if_neg fun hend => hnot ⟨hend.1, Automaton.mem_reducing.1 hend.2⟩, hm]
  | @accept c r hc hrule hl hend =>
    refine absurd ⟨.accept, ?_, Or.inl rfl⟩ hdropped
    have hzero := Automaton.mem_reducing.2 ⟨c, r, hrule, hc, hl⟩
    rw [h.action?_of_isTerminal ha hx, Automaton.content, if_pos ⟨hend, hzero⟩]
  | @reduce c r hc hrule hl =>
    have hk : a.Reducible g n x c.rule := ⟨c, r, rfl, hc, hl⟩
    refine Or.inr ⟨c.rule, rfl, hrule, hk, ?_⟩
    cases haction : t.action? n x with
    | none =>
      rw [haction] at hsettles
      exact absurd (hsettles.2 _ (hmem.2 hk)).1 hrule
    | some β =>
      rw [haction] at hsettles
      have hnot : ¬ β.ReducesBy c.rule := fun hβ => hdropped ⟨β, haction, Or.inr ⟨_, rfl, hβ⟩⟩
      cases β with
      | shift m => exact Or.inl (by rw [hsettles.1]; nofun)
      | accept => exact Or.inr ⟨hsettles.1, hmem.1 hsettles.2⟩
      | reduce l =>
        obtain ⟨-, -, -, -, hall⟩ := hsettles
        exact absurd ((hall _ (hmem.2 hk)).resolve_left hrule).symm hnot
      | reduceMulti set => exact absurd ((hsettles.2.2.1 _).2 ⟨hrule, hmem.2 hk⟩) hnot
      | goto m => exact hsettles.elim

/-- Of two members of a list without repetitions the one comes before the other, or the other before the one. -/
lemma exists_prefix_iff_not_sublist {l : List Nat} (hnodup : l.Nodup) {k z : Nat} (hk : k ∈ l) (hz : z ∈ l)
    (hne : k ≠ z) : (∃ before, before ++ [k] <+: l ∧ z ∈ before) ↔ ¬ [k, z].Sublist l := by
  induction l with
  | nil => cases hk
  | cons y l ih =>
    obtain ⟨hy, hnodup⟩ := List.nodup_cons.1 hnodup
    have hstep : (∃ before, before ++ [k] <+: y :: l ∧ z ∈ before) ↔
        ∃ before, before ++ [k] <+: l ∧ (z = y ∨ z ∈ before) := by
      constructor
      · rintro ⟨_ | ⟨b, before⟩, hbegins, hbefore⟩
        · cases hbefore
        · obtain ⟨rfl, htail⟩ := List.cons_prefix_cons.1 hbegins
          exact ⟨before, htail, List.mem_cons.1 hbefore⟩
      · rintro ⟨before, hbegins, hbefore⟩
        exact ⟨y :: before, List.cons_prefix_cons.2 ⟨rfl, hbegins⟩, List.mem_cons.2 hbefore⟩
    rw [hstep]
    by_cases hky : k = y
    · subst hky
      have hzl : z ∈ l := (List.mem_cons.1 hz).resolve_left hne.symm
      refine iff_of_false ?_ fun hnot => hnot ((List.singleton_sublist.2 hzl).cons_cons k)
      rintro ⟨before, hbegins, -⟩
      exact hy (hbegins.subset (by simp))
    · have hkl : k ∈ l := (List.mem_cons.1 hk).resolve_left hky
      have hsub : [k, z].Sublist (y :: l) ↔ [k, z].Sublist l :=
        ⟨fun hsub => (List.sublist_cons_iff.1 hsub).resolve_right fun ⟨_, heq, _⟩ => hky (List.cons.inj heq).1,
          fun hsub => hsub.cons y⟩
      rw [hsub]
      by_cases hzy : z = y
      · subst hzy
        obtain ⟨before, after, heq⟩ := List.append_of_mem hkl
        exact iff_of_true ⟨before, ⟨after, by simp [heq]⟩, Or.inl rfl⟩ fun hsub => hy (hsub.subset (by simp))
      · rw [← ih hnodup hkl ((List.mem_cons.1 hz).resolve_left hzy)]
        simp [hzy]

namespace Automaton.Closed

variable {g : Augmented} {a : Automaton} (h : a.Closed g) {resolved : List (Cell × Resolution)}
  (hresolved : g.resolveAll a = .ok resolved)
include h hresolved

/-- The candidates that notices name are the reductions that come after the augmenting rule at the end of input, and
those of symbols with a transition. -/
lemma exists_rejects_iff (wf : g.WellFormed) {n : Nat} {x : Symbol} (hx : g.kinds.IsTerminal x) {α : Action} :
    (∃ notice ∈ conflictNotices resolved, notice.Rejects n x α) ↔
      ∃ before k, before ++ [k] <+: a.reducingList g n x ∧ k ≠ 0 ∧ α = .reduce k ∧
        (x = Symbol.eof ∧ 0 ∈ before ∨ a.goto? n x ≠ none) := by
  constructor
  · rintro ⟨notice, hnotice, hrejects⟩
    rcases mem_conflictNotices.1 hnotice with ⟨⟨cell, r⟩, hmem, hnotice⟩ | ⟨-, rfl⟩
    · have hrecords := h.records hresolved hmem (h.isTerminal_of_mem_notices hresolved hmem hnotice)
      obtain ⟨before, k, hbegins, hk, rule, hrule, hobjection⟩ := hrecords.mem_notices.1 hnotice
      have hindex := wf.index_eq hrule
      unfold Resolution.objection at hobjection
      split_ifs at hobjection with hend
      · obtain rfl := Option.some.inj hobjection
        obtain ⟨rfl, rfl, rfl⟩ := hrejects
        rw [hend.1] at hbegins
        exact ⟨before, k, hbegins, hk, by rw [hindex], Or.inl ⟨rfl, hend.2⟩⟩
      · obtain ⟨m, hm, rfl⟩ := Option.map_eq_some_iff.1 hobjection
        obtain ⟨rfl, rfl, rfl⟩ := hrejects
        exact ⟨before, k, hbegins, hk, by rw [hindex], Or.inr (by rw [hm]; nofun)⟩
    · exact hrejects.elim
  · rintro ⟨before, k, hbegins, hk, rfl, hagainst⟩
    have hmem : k ∈ a.reducingList g n x := hbegins.subset (by simp)
    obtain ⟨c, rule, rfl, ⟨hrule, -⟩, s, hs, -⟩ := mem_reducingList.1 hmem
    obtain ⟨items, hitems, hcomplete⟩ := h.exists_completeItems_eq_ok hs
    obtain ⟨r, hr, -⟩ := h.exists_resolve_eq_ok hs hcomplete hx
    have hcell : ((⟨n, x⟩ : Cell), r) ∈ resolved :=
      (h.mem_resolveAll hresolved).2 ⟨s, hs, items, .terminal, hitems, hx, hr⟩
    have hrecords := h.records hresolved hcell hx
    have hfound {notice : Notice}
        (hnotice : Resolution.objection ⟨n, x⟩ (a.goto? n x) before rule = some notice) :
        notice ∈ conflictNotices resolved :=
      mem_conflictNotices.2 (Or.inl ⟨_, hcell, hrecords.mem_notices.2 ⟨before, _, hbegins, hk, rule, hrule, hnotice⟩⟩)
    have hindex := wf.index_eq hrule
    by_cases hend : x = Symbol.eof ∧ 0 ∈ before
    · exact ⟨_, hfound (if_pos hend), rfl, hend.1, by rw [hindex]⟩
    · obtain ⟨m, hm⟩ := Option.ne_none_iff_exists'.1 (hagainst.resolve_left hend)
      refine ⟨.shiftReduce n x m rule, hfound ?_, rfl, rfl, by rw [hindex]⟩
      exact (if_neg hend).trans (by rw [hm]; rfl)

/-- Reductions that are kept together give rise to a warning. -/
lemma exists_warning_of_reduceMulti {n : Nat} {x : Symbol} {set : RuleSet} (hx : g.kinds.IsTerminal x)
    (haction : (g.tableOf resolved).action? n x = some (.reduceMulti set)) :
    ∃ notice ∈ conflictNotices resolved, notice.level = .warn := by
  obtain ⟨r, hr, hset⟩ := Augmented.exists_of_action?_tableOf haction
  have hmerges := (h.records hresolved hr hx).merges_pos hset
  exact ⟨_, mem_conflictNotices.2 (Or.inr ⟨⟨_, hr, hmerges⟩, rfl⟩), rfl⟩

/-- A candidate that its cell drops is named by a warning unless it is silenced. -/
lemma exists_rejects_iff_not_silenced (wf : g.WellFormed) {t : Table} (ht : t.Fits g a) {n : Nat} {x : Symbol}
    (hx : g.kinds.IsTerminal x) {α : Action} (hα : a.Candidate g n x α) (hdropped : ¬ t.Keeps n x α) :
    (∃ notice ∈ conflictNotices resolved, notice.Rejects n x α) ↔ ¬ a.Silenced g n x α := by
  rw [h.exists_rejects_iff hresolved wf hx]
  rcases ht.cases_of_not_keeps h.explored hx hα hdropped with ⟨m, rfl, hend, hzero⟩ | ⟨k, rfl, hk, hmem, hagainst⟩
  · refine iff_of_false ?_ fun hnot => hnot ⟨hend, mem_reducingList.2 hzero⟩
    rintro ⟨before, k, -, -, heq, -⟩
    cases heq
  · have hmem := mem_reducingList.2 hmem
    cases hgoto : a.goto? n x with
    | some m =>
      obtain ⟨before, after, heq⟩ := List.append_of_mem hmem
      refine iff_of_true ⟨before, k, ⟨after, by simp [heq]⟩, hk, rfl, Or.inr nofun⟩ ?_
      rintro ⟨-, hnone, -⟩
      exact absurd (hgoto.symm.trans hnone) nofun
    | none =>
      obtain ⟨hend, hzero⟩ := hagainst.resolve_left fun hne => hne hgoto
      have horder := exists_prefix_iff_not_sublist h.nodup_reducingList hmem (mem_reducingList.2 hzero) hk
      have hsilenced : a.Silenced g n x (.reduce k) ↔ [k, 0].Sublist (a.reducingList g n x) :=
        ⟨fun hsilenced => hsilenced.2.2, fun hsub => ⟨hend, hgoto, hsub⟩⟩
      rw [hsilenced, ← horder]
      constructor
      · rintro ⟨before, l, hbegins, -, heq, hl⟩
        obtain rfl := Action.reduce.inj heq
        exact ⟨before, hbegins, (hl.resolve_right fun hne => hne rfl).2⟩
      · rintro ⟨before, hbegins, hbefore⟩
        exact ⟨before, k, hbegins, hk, rfl, Or.inl ⟨hend, hbefore⟩⟩

end Automaton.Closed

/-- Where the augmenting item stands first in its state, the augmenting rule comes before all the others. -/
lemma Automaton.Closed.exists_reducingList_eq_cons {g : Augmented} {a : Automaton} (h : a.Closed g) {n : Nat}
    {x : Symbol} {s : ItemSet} (hs : a.states[n]? = some s) {c : Core} {r : Rule} (hc : g.Completes c r)
    (hlooks : s.Looks c x) {rest : List Core} (hcores : s.items.map Item.core = c :: rest) :
    ∃ l, a.reducingList g n x = c.rule :: l := by
  obtain ⟨i, hi, rfl, hx⟩ := hlooks
  obtain ⟨j, items, hitems, hj, -⟩ := List.map_eq_cons_iff.1 hcores
  obtain rfl : j = i := List.inj_on_of_nodup_map (h.distinct s (Array.mem_of_getElem? hs))
    (hitems ▸ List.mem_cons_self) hi hj
  have hcomplete : g.rules[j.core.rule]?.any (fun r => j.core.dot == r.rhs.length) = true := by
    rw [hc.1, Option.any_some, beq_iff_eq, hc.2]
  rw [reducingList, hs, Option.elim_some, hitems, List.filter_cons,
    if_pos (Bool.and_eq_true_iff.2 ⟨hcomplete, hx⟩), List.map_cons]
  exact ⟨_, rfl⟩

/-- Where neither the end of input nor the initial symbol occurs, no candidate is silenced. -/
lemma Grammar.not_silenced_of_not_occurs {grammar : Grammar} {g : Augmented} (haugment : grammar.augment = .ok g)
    (heof : ¬ grammar.Occurs Symbol.eof) (hinit : ¬ grammar.Occurs grammar.init) {bare a : Automaton}
    (hbare : g.automaton = .ok bare) {m : Lookaheads} (hclose : (bare.withLookaheads m).close g = .ok a)
    (ha : a.Closed g) {n : Nat} {x : Symbol} {α : Action} (hα : a.Candidate g n x α) : ¬ a.Silenced g n x α := by
  have wf := wellFormed_of_augment haugment
  cases hα with
  | shift hm =>
    rintro ⟨rfl, -⟩
    obtain ⟨-, -, ⟨c, rest, hc, hmarks⟩, -⟩ := ha.explored.target hm
    exact heof ((occursIn_of_reaches haugment ha.explored hc).of_marks haugment hmarks).1
  | accept => exact id
  | @reduce c r hc hrule hl =>
    rintro ⟨rfl, -, hsub⟩
    obtain ⟨⟨rule, dot⟩, r', hzero, hcomplete, s, hs, hlooks⟩ :=
      Automaton.mem_reducingList.1 (hsub.subset (List.mem_cons_of_mem _ List.mem_cons_self))
    obtain rfl : rule = 0 := hzero
    obtain rfl := Option.some.inj (wf.augmenting.symm.trans hcomplete.1)
    obtain rfl : dot = 1 := hcomplete.2
    have hone : s.HasKernel ⟨0, 1⟩ := by
      rw [← kernelAt_eq hs]
      cases ha.reaches ⟨s, hs, hlooks.has⟩ with
      | kernel hk => exact hk
    -- the augmenting rule stands first, and only there
    obtain ⟨bare', hbare', hexplored, -⟩ := Augmented.exists_automaton_eq_ok wf
    obtain rfl := Except.ok.inj (hbare.symm.trans hbare')
    obtain ⟨rest, hcores⟩ :=
      Automaton.exists_cores_eq_cons wf hbare (hexplored.avoidsInit haugment hinit) hclose hs hone
    obtain ⟨l, hl⟩ := ha.exists_reducingList_eq_cons hs hcomplete hlooks hcores
    have hnodup := ha.nodup_reducingList (n := n) (x := Symbol.eof)
    rw [hl] at hsub hnodup
    rcases List.sublist_cons_iff.1 hsub with hsub | ⟨_, heq, -⟩
    · exact (List.nodup_cons.1 hnodup).1 (hsub.subset (by simp [Augmented.augmentingRule]))
    · exact hrule (List.cons.inj heq).1

namespace Grammar

/-- In the table of a grammar that passes its checks, a candidate that its cell drops is named by a warning, with the
state, exactly when accepting does not silence it.  Where neither the end of input nor the initial symbol occurs in a
string that the start symbol derives, every candidate is kept or named by a warning, and a construction without
warnings is free of conflicts. -/
theorem dropped_candidates_are_reported {grammar : Grammar} {g : Augmented} (haugment : grammar.augment = .ok g)
    (verbose : Bool) :
    ∃ c, grammar.construct verbose = .ok c ∧
      (∀ n x α, g.kinds.IsTerminal x → c.automaton.Candidate g n x α → ¬ c.table.Keeps n x α →
        ((∃ notice ∈ c.notices, notice.level = .warn ∧ notice.Rejects n x α) ↔
          ¬ c.automaton.Silenced g n x α)) ∧
      (¬ grammar.Occurs Symbol.eof → ¬ grammar.Occurs grammar.init →
        (∀ n x α, g.kinds.IsTerminal x → c.automaton.Candidate g n x α →
          c.table.Keeps n x α ∨ ∃ notice ∈ c.notices, notice.level = .warn ∧ notice.Rejects n x α) ∧
        ((∀ notice ∈ c.notices, notice.level ≠ .warn) →
          c.automaton.ConflictFree g ∧ c.table.checkDeterministic = .ok ())) := by
  have wf := wellFormed_of_augment haugment
  obtain ⟨c, hc, -, hclosed, hfits⟩ := exists_construct_eq_ok haugment verbose
  obtain ⟨bare, m, resolved, hbare, hclose, hresolved, htable, hnotices⟩ := exists_of_construct haugment hc
  have hwarn {n : Nat} {x : Symbol} {α : Action} :
      (∃ notice ∈ c.notices, notice.level = .warn ∧ notice.Rejects n x α) ↔
        ∃ notice ∈ conflictNotices resolved, notice.Rejects n x α :=
    ⟨fun ⟨notice, hmem, hlevel, hrejects⟩ => ⟨notice, (hnotices notice hlevel).1 hmem, hrejects⟩,
      fun ⟨notice, hmem, hrejects⟩ =>
        ⟨notice, (hnotices notice hrejects.level_eq).2 hmem, hrejects.level_eq, hrejects⟩⟩
  have hiff {n : Nat} {x : Symbol} {α : Action} (hx : g.kinds.IsTerminal x) (hα : c.automaton.Candidate g n x α)
      (hdropped : ¬ c.table.Keeps n x α) :
      (∃ notice ∈ c.notices, notice.level = .warn ∧ notice.Rejects n x α) ↔ ¬ c.automaton.Silenced g n x α :=
    hwarn.trans (hclosed.exists_rejects_iff_not_silenced hresolved wf hfits hx hα hdropped)
  refine ⟨c, hc, fun n x α hx hα hdropped => hiff hx hα hdropped, fun heof hinit => ?_⟩
  have hall : ∀ n x α, g.kinds.IsTerminal x → c.automaton.Candidate g n x α →
      c.table.Keeps n x α ∨ ∃ notice ∈ c.notices, notice.level = .warn ∧ notice.Rejects n x α := by
    intro n x α hx hα
    by_cases hkeeps : c.table.Keeps n x α
    · exact Or.inl hkeeps
    · exact Or.inr ((hiff hx hα hkeeps).2
        (not_silenced_of_not_occurs haugment heof hinit hbare hclose hclosed hα))
  refine ⟨hall, fun hnone => ?_⟩
  have hfree : c.automaton.ConflictFree g := by
    have haction {n : Nat} {x : Symbol} {α : Action} (hx : g.kinds.IsTerminal x)
        (hα : c.automaton.Candidate g n x α) : c.table.action? n x = some α := by
      rcases hall n x α hx hα with ⟨β, hβ, rfl | ⟨k, rfl, hk⟩⟩ | ⟨notice, hmem, hlevel, -⟩
      · exact hβ
      · cases β with
        | reduce l => rwa [← show l = k from hk]
        | reduceMulti set =>
          obtain ⟨notice, hmem, hlevel⟩ := hclosed.exists_warning_of_reduceMulti hresolved hx (htable ▸ hβ)
          exact absurd hlevel (hnone notice ((hnotices notice hlevel).2 hmem))
        | _ => exact hk.elim
      · exact absurd hlevel (hnone notice hmem)
    intro n x α β hx hα hβ
    exact Option.some.inj ((haction hx hα).symm.trans (haction hx hβ))
  exact ⟨hfree, hfits.checkDeterministic_eq_ok hfree⟩

/-- Two symbols that stand for each other, in the grammar `S ::= A | a`, `A ::= S`, with the symbols `S = 1`,
`A = 2` and `a = 10`. -/
def reciprocal : Grammar :=
  ofProductions [(⟨1⟩, [⟨2⟩]), (⟨1⟩, [⟨10⟩]), (⟨2⟩, [⟨1⟩])]

/-- After the start symbol accepting stands against the rule `A ::= S`, and a warning says so. -/
theorem dropped_candidates_are_reported_reciprocal :
    ¬ reciprocal.Occurs Symbol.eof ∧ ¬ reciprocal.Occurs reciprocal.init ∧
      ∃ g c, reciprocal.augment = .ok g ∧ reciprocal.construct false = .ok c ∧
        c.automaton.Candidate g 1 Symbol.eof (.reduce 3) ∧ c.table.action? 1 Symbol.eof = some .accept ∧
        ∃ notice ∈ c.notices, notice.level = .warn ∧ notice.Rejects 1 Symbol.eof (.reduce 3) := by
  have heof : ¬ reciprocal.Occurs Symbol.eof := by
    intro hoccurs
    rcases hoccurs.eq_start_or_mem with heq | ⟨p, hp, hmem⟩
    · exact absurd heq (by decide +kernel)
    · have hall : ∀ p ∈ reciprocal.productions, Symbol.eof ∉ p.2 := by decide +kernel
      exact hall p hp hmem
  have hinit : ¬ reciprocal.Occurs reciprocal.init := by
    intro hoccurs
    rcases hoccurs.eq_start_or_mem with heq | ⟨p, hp, hmem⟩
    · exact absurd heq (by decide +kernel)
    · have hall : ∀ p ∈ reciprocal.productions, reciprocal.init ∉ p.2 := by decide +kernel
      exact hall p hp hmem
  have hrun : (do
      let g ← reciprocal.augment.toOption
      let c ← (reciprocal.construct false).toOption
      some (g.kinds[Symbol.eof]?, c.automaton.reducingList g 1 Symbol.eof, c.table.action? 1 Symbol.eof)) =
      some (some .terminal, [0, 3], some .accept) := by decide +kernel
  obtain ⟨g, hg, hrun⟩ := Option.bind_eq_some_iff.1 hrun
  obtain ⟨c, hc, hrun⟩ := Option.bind_eq_some_iff.1 hrun
  obtain ⟨hkind, hrun⟩ := Prod.mk.inj (Option.some.inj hrun)
  obtain ⟨hrules, haction⟩ := Prod.mk.inj hrun
  rw [toOption_eq_some_iff] at hg hc
  obtain ⟨c', hc', -, hreported⟩ := dropped_candidates_are_reported hg false
  obtain rfl := Except.ok.inj (hc.symm.trans hc')
  have hreducible := Automaton.mem_reducingList.1 (hrules ▸ List.mem_cons_of_mem 0 List.mem_cons_self)
  have hcandidate : c.automaton.Candidate g 1 Symbol.eof (.reduce 3) := hreducible.candidate (by decide)
  refine ⟨heof, hinit, g, c, hg, hc, hcandidate, haction, ?_⟩
  refine ((hreported heof hinit).1 1 _ _ hkind hcandidate).resolve_left ?_
  rintro ⟨β, hβ, hkeeps⟩
  obtain rfl := Option.some.inj (haction.symm.trans hβ)
  rcases hkeeps with heq | ⟨k, -, hk⟩
  · cases heq
  · exact hk

/-- The initial symbol at the end of a body: `S ::= a S | a I | b`, with the symbols `I = 0`, `S = 1`, `a = 10` and
`b = 11`. -/
def resumed : Grammar :=
  ofProductions [(⟨1⟩, [⟨10⟩, ⟨1⟩]), (⟨1⟩, [⟨10⟩, ⟨0⟩]), (⟨1⟩, [⟨11⟩])]

/-- The end of input in a body: `S ::= S EOF | a`, with the symbols `S = 1` and `a = 10`. -/
def ended : Grammar :=
  ofProductions [(⟨1⟩, [⟨1⟩, Symbol.eof]), (⟨1⟩, [⟨10⟩])]

/-- Accepting replaces a reduction whose item stands before the augmenting item, and it replaces a shift, and in
neither case there is a warning. -/
theorem exists_silent_conflicts :
    (∃ g c, resumed.augment = .ok g ∧ resumed.construct false = .ok c ∧
      (∀ notice ∈ c.notices, notice.level ≠ .warn) ∧ c.automaton.Candidate g 4 Symbol.eof .accept ∧
      c.automaton.Candidate g 4 Symbol.eof (.reduce 1) ∧ c.table.action? 4 Symbol.eof = some .accept) ∧
    ∃ g c, ended.augment = .ok g ∧ ended.construct false = .ok c ∧
      (∀ notice ∈ c.notices, notice.level ≠ .warn) ∧ c.automaton.Candidate g 1 Symbol.eof .accept ∧
      c.automaton.Candidate g 1 Symbol.eof (.shift 3) ∧ c.table.action? 1 Symbol.eof = some .accept := by
  have hresumed : (do
      let g ← resumed.augment.toOption
      let c ← (resumed.construct false).toOption
      some (c.notices.all fun notice => notice.level ≠ .warn, c.automaton.reducingList g 4 Symbol.eof,
        c.table.action? 4 Symbol.eof)) = some (true, [1, 0], some .accept) := by decide +kernel
  have hended : (do
      let g ← ended.augment.toOption
      let c ← (ended.construct false).toOption
      some (c.notices.all fun notice => notice.level ≠ .warn, c.automaton.reducingList g 1 Symbol.eof,
        c.automaton.goto? 1 Symbol.eof, c.table.action? 1 Symbol.eof)) =
      some (true, [0], some 3, some .accept) := by decide +kernel
  constructor
  · obtain ⟨g, hg, hresumed⟩ := Option.bind_eq_some_iff.1 hresumed
    obtain ⟨c, hc, hresumed⟩ := Option.bind_eq_some_iff.1 hresumed
    obtain ⟨hsilent, hresumed⟩ := Prod.mk.inj (Option.some.inj hresumed)
    obtain ⟨hrules, haction⟩ := Prod.mk.inj hresumed
    have hone := Automaton.mem_reducingList.1 (hrules ▸ List.mem_cons_self)
    have hzero := Automaton.mem_reducingList.1 (hrules ▸ List.mem_cons_of_mem 1 List.mem_cons_self)
    exact ⟨g, c, toOption_eq_some_iff.1 hg, toOption_eq_some_iff.1 hc, by simpa using hsilent,
      hzero.candidate_accept, hone.candidate (by decide), haction⟩
  · obtain ⟨g, hg, hended⟩ := Option.bind_eq_some_iff.1 hended
    obtain ⟨c, hc, hended⟩ := Option.bind_eq_some_iff.1 hended
    obtain ⟨hsilent, hended⟩ := Prod.mk.inj (Option.some.inj hended)
    obtain ⟨hrules, hended⟩ := Prod.mk.inj hended
    obtain ⟨hgoto, haction⟩ := Prod.mk.inj hended
    have hzero := Automaton.mem_reducingList.1 (hrules ▸ List.mem_cons_self)
    exact ⟨g, c, toOption_eq_some_iff.1 hg, toOption_eq_some_iff.1 hc, by simpa using hsilent,
      hzero.candidate_accept, .shift hgoto, haction⟩

end Grammar

end Lalr
