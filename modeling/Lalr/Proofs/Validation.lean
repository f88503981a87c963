import Lalr.Proofs.Cells
import Lalr.Proofs.Saturation

/-!
# What the checks of a grammar are worth

A grammar is refused with the list of its defects.  The list has every defect once, although productions may be
repeated and several of them may have the same defect (`Grammar.nodup_defects`), so that together with
`Grammar.mem_defects` it is exactly the set of the defects.  A grammar without defects is never refused, and its rules
are the augmenting rule and the given productions, each at the place of its first occurrence among the others
(`Grammar.augment_reports_defects`).

What has passed the checks cannot fail later on.  The construction of the table looks up transitions and items that
it has found before by other means, and each of these lookups succeeds: the closure of a kernel item with the
placeholder stays within what its state reaches without lookaheads, and from there every symbol after a dot leads to
a state with the dot moved (`Grammar.construct_succeeds`).
-/

namespace Lalr

/-! ### Order of first occurrence -/

section

variable {α : Type} [BEq α] [LawfulBEq α]

/-- Leaving out elements does not change which of two others comes first. -/
lemma idxOf_lt_of_filter {xs : List α} {keep : α → Bool} {a b : α} (ha : keep a = true) (hb : keep b = true)
    (h : (xs.filter keep).idxOf a < (xs.filter keep).idxOf b) : xs.idxOf a < xs.idxOf b := by
  induction xs with
  | nil => simp at h
  | cons x xs ih =>
    by_cases hx : keep x = true
    · rw [List.filter_cons_of_pos hx] at h
      rw [List.idxOf_cons, List.idxOf_cons] at h ⊢
      cases hxa : x == a with
      | true =>
        cases hxb : x == b with
        | true => simp [hxa, hxb] at h
        | false => simp
      | false =>
        cases hxb : x == b with
        | true => simp [hxb] at h
        | false =>
          simp only [hxa, hxb, cond_false, Nat.add_lt_add_iff_right] at h ⊢
          exact ih h
    · have hne {c : α} (hc : keep c = true) : (x == c) = false := beq_false_of_ne fun heq => hx (heq ▸ hc)
      rw [List.filter_cons_of_neg hx] at h
      rw [List.idxOf_cons, List.idxOf_cons, hne ha, hne hb, cond_false, cond_false, Nat.add_lt_add_iff_right]
      exact ih h

/-- Dropping repetitions keeps the order of the first occurrences. -/
lemma pairwise_idxOf_eraseDups (xs : List α) : xs.eraseDups.Pairwise fun a b => xs.idxOf a < xs.idxOf b := by
  induction hn : xs.length using Nat.strong_induction_on generalizing xs with
  | _ n ih =>
    cases xs with
    | nil => simp
    | cons x xs =>
      subst hn
      have hkeep {a : α} (ha : a ∈ (xs.filter fun b => !b == x).eraseDups) : (!a == x) = true :=
        (List.mem_filter.1 (List.mem_eraseDups.1 ha)).2
      have hcons {a : α} (ha : (!a == x) = true) : (x :: xs).idxOf a = xs.idxOf a + 1 := by
        have hne : (x == a) = false := beq_false_of_ne fun heq => by simp [heq] at ha
        rw [List.idxOf_cons, hne, cond_false]
      rw [List.eraseDups_cons, List.pairwise_cons]
      refine ⟨fun a ha => ?_, ?_⟩
      · rw [hcons (hkeep ha), List.idxOf_cons_self]
        exact Nat.succ_pos _
      · refine (ih _ (Nat.lt_succ_of_le (List.length_filter_le _ xs)) _ rfl).imp_of_mem fun {a b} ha hb hlt => ?_
        rw [hcons (hkeep ha), hcons (hkeep hb)]
        exact Nat.succ_lt_succ (idxOf_lt_of_filter (hkeep ha) (hkeep hb) hlt)

end

namespace Grammar

/-! ### Every defect is listed once -/

variable (grammar : Grammar)

/-- The defects of the symbols set apart differ in their roles. -/
lemma nodup_roleDefects : grammar.roleDefects.Nodup := by
  have hroles : grammar.roles.Nodup := by simp [roles]
  refine hroles.filterMap ?_
  rintro ⟨role, s, kind⟩ ⟨role', s', kind'⟩ d hd hd'
  obtain ⟨-, hd⟩ := Option.ite_none_left_eq_some.1 hd
  obtain ⟨-, hd'⟩ := Option.ite_none_left_eq_some.1 hd'
  obtain ⟨rfl, rfl, rfl⟩ := Defect.wrongKind.inj (Option.some.inj (hd.trans hd'.symm))
  rfl

/-- The uses of symbols without a kind are listed as a set. -/
lemma nodup_undefinedDefects : grammar.undefinedDefects.Nodup := by
  have huses : grammar.undefinedUses.Nodup := by
    refine Std.ExtTreeSet.distinct_toList.imp fun {u v} hne heq => hne ?_
    rw [heq]
    exact Std.ReflCmp.compare_self
  refine huses.map ?_
  rintro ⟨s, lhs⟩ ⟨s', lhs'⟩ heq
  obtain ⟨rfl, rfl⟩ := Defect.undefinedSymbol.inj heq
  rfl

/-- The nonterminals without rules are listed by symbol. -/
lemma nodup_missingDefects : grammar.missingDefects.Nodup := by
  refine Std.ExtTreeMap.distinct_keys_toList.filterMap _ ?_
  rintro ⟨s, kind⟩ ⟨s', kind'⟩ hne d hd d' hd' rfl
  obtain ⟨-, hd⟩ := Option.ite_none_right_eq_some.1 hd
  obtain ⟨-, hd'⟩ := Option.ite_none_right_eq_some.1 hd'
  obtain rfl := Defect.noRules.inj (Option.some.inj (hd.trans hd'.symm))
  exact hne Std.ReflOrd.compare_self

/-- No defect is listed twice: each group lists its own kind of defects, and none of them twice. -/
theorem nodup_defects : grammar.defects.Nodup := by
  have hplaceholder : grammar.placeholderDefects.Nodup := by
    unfold placeholderDefects
    split <;> simp
  have hheads : grammar.headDefects.Nodup := nodup_eraseDups _
  unfold defects
  simp only [List.nodup_append', List.disjoint_append_left]
  refine ⟨⟨⟨⟨grammar.nodup_roleDefects, hplaceholder, ?_⟩, hheads, ?_, ?_⟩, grammar.nodup_undefinedDefects,
    ⟨?_, ?_⟩, ?_⟩, grammar.nodup_missingDefects, ⟨⟨?_, ?_⟩, ?_⟩, ?_⟩ <;>
  · intro d hd hd'
    simp only [mem_roleDefects, mem_placeholderDefects, mem_headDefects, mem_undefinedDefects,
      mem_missingDefects] at hd hd'
    cases d <;> simp at hd hd'

/-! ### The answer of the checks -/

variable {grammar}

/-- Without defects no given production is left out: behind the augmenting one stand the given ones. -/
lemma distinctProductions_eq (hdefects : grammar.defects = []) :
    grammar.distinctProductions = (grammar.init, [grammar.start]) :: grammar.productions.eraseDups := by
  have hne {p : Symbol × Body} (hp : p ∈ grammar.productions) : p.1 ≠ grammar.init := lhs_ne_init hdefects hp
  have hall : (grammar.productions.filter fun p => p.1 != grammar.init) = grammar.productions :=
    List.filter_eq_self.2 fun p hp => bne_iff_ne.2 (hne hp)
  have hother : (grammar.productions.filter fun p => !p == (grammar.init, [grammar.start])) = grammar.productions :=
    List.filter_eq_self.2 fun p hp => by
      simpa using fun heq => hne hp (congrArg Prod.fst heq)
  rw [distinctProductions, hall, List.eraseDups_cons, hother]

/-- A grammar is refused exactly when it has a defect, and then with a list that has every defect once and nothing
else.  What is not refused has as its rules the augmenting rule, with number zero, and the given productions in order
of first occurrence, each with its place as its number. -/
theorem augment_reports_defects (grammar : Grammar) :
    ((∃ failure, grammar.augment = .error failure) ↔ ∃ d, grammar.HasDefect d) ∧
      (∀ failure, grammar.augment = .error failure → ∃ defects, failure = .invalid ⟨defects⟩ ∧
        defects.Nodup ∧ ∀ d, d ∈ defects ↔ grammar.HasDefect d) ∧
      ∀ g, grammar.augment = .ok g → ∃ distinct,
        (∀ p, p ∈ distinct ↔ p ∈ grammar.productions) ∧
        (distinct.Pairwise fun p q => grammar.productions.idxOf p < grammar.productions.idxOf q) ∧
        g.rules.toList =
          ((grammar.init, [grammar.start]) :: distinct).mapIdx fun n p => ⟨n, p.1, p.2⟩ := by
  have hfailure {failure : Failure} (h : grammar.augment = .error failure) :
      grammar.defects ≠ [] ∧ failure = .invalid ⟨grammar.defects⟩ := by
    by_cases hdefects : grammar.defects = []
    · obtain ⟨g, hg⟩ := exists_augment_of_defects hdefects
      cases h.symm.trans hg
    · exact ⟨hdefects, Except.error.inj (h.symm.trans (augment_of_defects hdefects))⟩
  refine ⟨⟨?_, ?_⟩, fun failure h => ?_, fun g hg => ?_⟩
  · rintro ⟨failure, h⟩
    obtain ⟨d, hd⟩ := List.exists_mem_of_ne_nil _ (hfailure h).1
    exact ⟨d, mem_defects.1 hd⟩
  · rintro ⟨d, hd⟩
    exact ⟨_, augment_of_defects (List.ne_nil_of_mem (mem_defects.2 hd))⟩
  · exact ⟨grammar.defects, (hfailure h).2, grammar.nodup_defects, fun d => mem_defects⟩
  · obtain ⟨hdefects, -, -, -, hrules, -⟩ := augment_eq_ok hg
    refine ⟨grammar.productions.eraseDups, fun p => List.mem_eraseDups, pairwise_idxOf_eraseDups _, ?_⟩
    rw [hrules, rules, distinctProductions_eq hdefects]

/-! ### No failure after the checks -/

/-- The table of a grammar that passes its checks is constructed.  All items that come up belong to rules of the
grammar, with the dot inside of the body, and where an item of the closure of a kernel item with the placeholder has
a symbol after its dot, the state has a transition on this symbol, to a state with an item for the dot moved. -/
theorem construct_succeeds {grammar : Grammar} {g : Augmented} (haugment : grammar.augment = .ok g)
    (verbose : Bool) :
    ∃ bare c, g.automaton = .ok bare ∧ grammar.construct verbose = .ok c ∧
      (∀ s ∈ c.automaton.states, ∀ i ∈ s.items, g.Valid i.core) ∧
      ∀ site ∈ bare.kernelSites, ∃ probe,
        g.close (ItemSet.ofList [⟨site.core, true, {Symbol.placeholder}⟩]) = .ok probe ∧
        ∀ i ∈ probe.items, g.Valid i.core ∧ ∀ x rest, g.Marks i.core x rest →
          ∃ m j, bare.goto site.state x = .ok m ∧ bare.item m i.core.advance = .ok j ∧
            j.core = i.core.advance := by
  have wf := wellFormed_of_augment haugment
  obtain ⟨bare, hbare, hexplored, -⟩ := Augmented.exists_automaton_eq_ok wf
  obtain ⟨c, hc, -, hclosed, -⟩ := exists_construct_eq_ok haugment verbose
  refine ⟨bare, c, hbare, hc, fun s hs i hi => ?_, fun site hsite => ?_⟩
  · obtain ⟨n, hn⟩ := Array.mem_iff_getElem?.1 hs
    exact (hclosed.reaches ⟨s, hn, i, hi, rfl⟩).valid fun _ hk => hclosed.explored.valid hk
  · obtain ⟨probe, hprobe, hreaches, -⟩ :=
      Automaton.exists_probe_eq_ok wf hexplored site (Automaton.mem_kernelSites.1 hsite)
    refine ⟨probe, hprobe, fun i hi => ⟨(hreaches i hi).valid fun _ hk => hexplored.valid hk, ?_⟩⟩
    intro x rest hm
    obtain ⟨m, j, -, hgoto, hitem, hcore⟩ := Automaton.exists_goto_item_eq_ok hexplored (hreaches i hi) hm
    exact ⟨m, j, hgoto, hitem, hcore⟩

/-- Inside of a pair the kernel item `S ::= a . S b` opens the rules of `S`, and both `S` and `a` lead on from its
state. -/
theorem construct_succeeds_nested :
    ∃ g bare c probe, nested.augment = .ok g ∧ g.automaton = .ok bare ∧ nested.construct false = .ok c ∧
      g.close (ItemSet.ofList [⟨⟨1, 1⟩, true, {Symbol.placeholder}⟩]) = .ok probe ∧
      (∃ i ∈ probe.items, i.core = ⟨1, 0⟩) ∧
      ∃ m j, bare.goto 2 ⟨10⟩ = .ok m ∧ bare.item m ⟨1, 1⟩ = .ok j := by
  have hrun : (do
      let g ← nested.augment.toOption
      let bare ← g.automaton.toOption
      let probe ← (g.close (ItemSet.ofList [⟨⟨1, 1⟩, true, {Symbol.placeholder}⟩])).toOption
      some (g.rules[1]?, bare.kernelSites.contains ⟨2, ⟨1, 1⟩⟩, probe.items.map Item.core)) =
      some (some ⟨1, ⟨1⟩, [⟨10⟩, ⟨1⟩, ⟨11⟩]⟩, true, [⟨1, 1⟩, ⟨1, 0⟩, ⟨2, 0⟩]) := by decide +kernel
  obtain ⟨g, hg, hrun⟩ := Option.bind_eq_some_iff.1 hrun
  obtain ⟨bare, hbare, hrun⟩ := Option.bind_eq_some_iff.1 hrun
  obtain ⟨probe, hprobe, hrun⟩ := Option.bind_eq_some_iff.1 hrun
  obtain ⟨hrule, hrun⟩ := Prod.mk.inj (Option.some.inj hrun)
  obtain ⟨hsite, hcores⟩ := Prod.mk.inj hrun
  rw [toOption_eq_some_iff] at hg hbare hprobe
  obtain ⟨bare', c, hbare', hc, -, hall⟩ := construct_succeeds hg false
  obtain rfl := Except.ok.inj (hbare.symm.trans hbare')
  obtain ⟨probe', hprobe', hitems⟩ := hall ⟨2, ⟨1, 1⟩⟩ (List.contains_iff_mem.1 hsite)
  obtain rfl := Except.ok.inj (hprobe.symm.trans hprobe')
  obtain ⟨i, hi, hcore⟩ : ∃ i ∈ probe.items, i.core = ⟨1, 0⟩ := by
    rw [← List.mem_map, hcores]
    simp
  obtain ⟨m, j, hgoto, hitem, -⟩ := (hitems i hi).2 ⟨10⟩ [⟨1⟩, ⟨11⟩] (by rw [hcore]; exact ⟨_, hrule, rfl⟩)
  rw [hcore] at hitem
  exact ⟨g, bare, c, probe, hg, hbare, hc, hprobe, ⟨i, hi, hcore⟩, m, j, hgoto, hitem⟩

end Grammar

end Lalr
