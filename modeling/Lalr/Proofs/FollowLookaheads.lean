import Lalr.Proofs.Cells
import Lalr.Proofs.FollowSets

/-!
# Lookaheads are within follow sets

The lookaheads of an item say what may come after its rule in one state, and the follow set of the left-hand side says
what may come after the rule anywhere.  The two are computed by unrelated means: follow sets by equations between
symbols, lookaheads by closures of single kernel items and by links between states.  That the first are included in the
second is seen on the way on which a lookahead comes about.  It is the end of input behind the augmenting rule, or it
begins the rest of a body, and then it is handed down past nullable rests and carried along with the dot
(`Automaton.Closed.looksAt_induction`).  Each of these steps has an equation of the follow sets beside it.  A kernel
item need not have a lookahead of its own for this: what begins the rest of its body is handed down all the same.

If the follow sets in place of the lookaheads leave no room for a conflict, then there is none with the lookaheads
(`Automaton.Closed.conflictFree_of_withFollow`).
-/

namespace Lalr

/-! ### How lookaheads come about -/

namespace Augmented

variable {g : Augmented}

/-- The symbol after a dot stands in a production, with the rest of the body behind it. -/
lemma Marks.exists_production {c : Core} {x : Symbol} {rest : Body} (h : g.Marks c x rest) :
    ∃ r before, g.rules[c.rule]? = some r ∧ (r.lhs, before ++ x :: rest) ∈ g.productions := by
  obtain ⟨r, hr, hdrop⟩ := h
  refine ⟨r, r.rhs.take c.dot, hr, ?_⟩
  rw [← hdrop, List.take_append_drop]
  exact mem_productions_of_rule hr

end Augmented

namespace Automaton

variable {g : Augmented} {a : Automaton}

/-- What holds of the end of input behind the augmenting rule and of everything that begins the rest of a body, and is
kept past nullable rests and when the dot moves, holds of all lookaheads. -/
lemma Closed.looksAt_induction (wf : g.WellFormed) (h : a.Closed g) {R : Core → Symbol → Prop}
    (hstart : R ⟨0, 0⟩ Symbol.eof)
    (hbegin : ∀ {c : Core} {k : Nat} {rest : Body} {x : Symbol}, g.Opens c k rest →
      Starts g.productions g.kinds rest x → R ⟨k, 0⟩ x)
    (hinherit : ∀ {c : Core} {k : Nat} {rest : Body} {x : Symbol}, g.Opens c k rest →
      (∀ y ∈ rest, Nullable g.productions y) → R c x → R ⟨k, 0⟩ x)
    (hadvance : ∀ {c : Core} {x : Symbol}, R c x → R c.advance x)
    {n : Nat} {c : Core} {x : Symbol} (hx : LooksAt a.states n c x) : R c x := by
  have hexpand {c : Core} {k : Nat} {rest : Body} {x y : Symbol} (hc : R c y) (ho : g.Opens c k rest)
      (hleads : Leads g.productions g.kinds rest y x) : R ⟨k, 0⟩ x := by
    rcases hleads with hstarts | ⟨hnull, rfl⟩
    · exact hbegin ho hstarts
    · exact hinherit ho hnull hc
  -- what arises in the closure of a kernel core does not depend on a lookahead of this core
  have hprobe {k c : Core} {x : Symbol} (hx : g.Probes k c x) (hne : x ≠ Symbol.placeholder) : R c x := by
    induction hx with
    | seed hk => exact absurd hk.2 hne
    | begin _ ho hstarts => exact hbegin ho hstarts
    | expand _ ho hleads ih =>
      rcases hleads with hstarts | ⟨hnull, rfl⟩
      · exact hbegin ho hstarts
      · exact hinherit ho hnull (ih hne)
  have hcarried {site : Site} {x : Symbol} (hx : a.Carried g site x) : R site.core x := by
    induction hx with
    | start => exact hstart
    | arises hx =>
      obtain ⟨n, k, c, y, rest, m, -, hx, hne, -, -, rfl⟩ := hx
      exact hadvance (hprobe hx hne)
    | link _ hl ih =>
      obtain ⟨-, c, y, rest, m, hx, -, -, rfl⟩ := hl
      exact hadvance (hx.of_placeholder hexpand wf ih)
  rw [h.looksAt_iff_closes] at hx
  induction hx with
  | seed hx => exact hcarried hx.2
  | begin _ ho hstarts => exact hbegin ho hstarts
  | expand _ ho hleads ih => exact hexpand ih ho hleads

end Automaton

/-! ### Follow sets -/

/-- The follow sets of a grammar that passes its checks hold exactly what can follow. -/
lemma Grammar.mem_follow_iff {grammar : Grammar} {g : Augmented} (haugment : grammar.augment = .ok g)
    {X t : Symbol} :
    t ∈ g.analysis.follow X ↔ CanFollow g.productions g.kinds g.init Symbol.eof X t := by
  have wf := wellFormed_of_augment haugment
  obtain ⟨-, hinit, -, hkinds, hrules, -, grew, hcompute⟩ := augment_eq_ok haugment
  have hstart : g.init ∈ g.kinds := Kinds.mem_iff_exists.2 ⟨_, wf.isNonterminal_lhs wf.augmenting⟩
  have hsymbols : ∀ r ∈ g.rules.toList, ∀ s ∈ r.lhs :: r.rhs, s ∈ g.kinds := by
    intro r hr
    obtain ⟨n, hn⟩ := List.mem_iff_getElem?.1 hr
    rw [Array.getElem?_toList] at hn
    exact List.forall_mem_cons.2 ⟨Kinds.mem_iff_exists.2 ⟨_, wf.isNonterminal_lhs hn⟩, wf.mem_kinds hn⟩
  obtain ⟨analysis, grew', hcompute', -, hfollow⟩ := Analysis.exists_compute_exact Symbol.eof hstart hsymbols
  rw [hkinds, hinit, hrules] at hcompute'
  obtain ⟨rfl, -⟩ := Prod.mk.inj (Except.ok.inj (hcompute.symm.trans hcompute'))
  exact hfollow X t

/-- The follow set of the left-hand side of a core. -/
def Augmented.followOf (g : Augmented) (c : Core) : SymbolSet :=
  g.rules[c.rule]?.elim ∅ fun r => g.analysis.follow r.lhs

/-- The follow set of a core of a rule. -/
lemma Augmented.mem_followOf {g : Augmented} {c : Core} {x : Symbol} :
    x ∈ g.followOf c ↔ ∃ r, g.rules[c.rule]? = some r ∧ x ∈ g.analysis.follow r.lhs := by
  unfold followOf
  cases g.rules[c.rule]? <;> simp

namespace Automaton

variable {grammar : Grammar} {g : Augmented} {a : Automaton}

/-- A lookahead of a core can follow its left-hand side. -/
lemma Closed.mem_followOf (haugment : grammar.augment = .ok g) (h : a.Closed g) {n : Nat} {c : Core} {x : Symbol}
    (hx : LooksAt a.states n c x) : x ∈ g.followOf c := by
  have wf := Grammar.wellFormed_of_augment haugment
  rw [Augmented.mem_followOf]
  simp only [Grammar.mem_follow_iff haugment]
  refine h.looksAt_induction wf (R := fun c x => ∃ r, g.rules[c.rule]? = some r ∧
    CanFollow g.productions g.kinds g.init Symbol.eof r.lhs x) ?_ ?_ ?_ id hx
  · exact ⟨_, wf.augmenting, .eof_start⟩
  · rintro c k rest x ⟨r, hr, hm⟩ hstarts
    obtain ⟨q, before, hq, hp⟩ := hm.exists_production
    exact ⟨r, hr, .of_starts hp (Kinds.mem_iff_exists.2 ⟨_, wf.isNonterminal_lhs hq⟩) hstarts⟩
  · rintro c k rest x ⟨r, hr, hm⟩ hnull ⟨q, hq, hfollow⟩
    obtain ⟨q', before, hq', hp⟩ := hm.exists_production
    obtain rfl := Option.some.inj (hq.symm.trans hq')
    exact ⟨r, hr, .of_lhs hp hnull hfollow⟩

/-! ### Follow sets in place of lookaheads -/

/-- The automaton with the follow sets of the left-hand sides in place of the lookaheads.  Items that a closure leaves
out because they have no lookaheads are not added, so that there are no more candidates than with all the items that
a state reaches. -/
def withFollow (g : Augmented) (a : Automaton) : Automaton :=
  { a with states := a.states.map fun s =>
      { s with items := s.items.map fun i => { i with lookaheads := g.followOf i.core } } }

/-- With follow sets the lookaheads of a core of a state are its follow set. -/
lemma looksAt_withFollow {n : Nat} {c : Core} {x : Symbol} :
    LooksAt (a.withFollow g).states n c x ↔ HasAt a.states n c ∧ x ∈ g.followOf c := by
  unfold LooksAt HasAt withFollow ItemSet.Looks ItemSet.Has
  rw [Array.getElem?_map]
  cases a.states[n]? with
  | none => simp
  | some s =>
    simp only [Option.map_some, Option.some.injEq, exists_eq_left', List.mem_map, exists_exists_and_eq_and]
    constructor
    · rintro ⟨i, hi, rfl, hx⟩
      exact ⟨⟨i, hi, rfl⟩, hx⟩
    · rintro ⟨⟨i, hi, rfl⟩, hx⟩
      exact ⟨i, hi, rfl, hx⟩

/-- A candidate stays a candidate with follow sets. -/
lemma Closed.candidate_withFollow (haugment : grammar.augment = .ok g) (h : a.Closed g) {n : Nat} {t : Symbol}
    {α : Action} (hα : a.Candidate g n t α) : (a.withFollow g).Candidate g n t α := by
  have hlooks {c : Core} (hc : LooksAt a.states n c t) : LooksAt (a.withFollow g).states n c t :=
    looksAt_withFollow.2 ⟨hc.hasAt, h.mem_followOf haugment hc⟩
  cases hα with
  | shift hm => exact .shift hm
  | accept hc hrule hl ht => exact .accept hc hrule (hlooks hl) ht
  | reduce hc hrule hl => exact .reduce hc hrule (hlooks hl)

/-- Without conflicts between follow sets there are none between lookaheads. -/
lemma Closed.conflictFree_of_withFollow (haugment : grammar.augment = .ok g) (h : a.Closed g)
    (hfree : (a.withFollow g).ConflictFree g) : a.ConflictFree g := fun _ _ _ _ ht hα hβ =>
  hfree ht (h.candidate_withFollow haugment hα) (h.candidate_withFollow haugment hβ)

end Automaton

namespace Grammar

/-- In the closed automaton of a grammar that passes its checks, every lookahead of an item is a terminal other than
the placeholder, and it is in the follow set of the left-hand side.  Therefore a cell reduces only by rules whose
left-hand side its symbol can follow.  If there is no conflict with follow sets in place of the lookaheads, then there
is none in the table, and no cell holds competing rules. -/
theorem lookaheads_within_follow {grammar : Grammar} {g : Augmented} (haugment : grammar.augment = .ok g)
    (verbose : Bool) :
    ∃ c, grammar.construct verbose = .ok c ∧
      (∀ s ∈ c.automaton.states, ∀ i ∈ s.items, ∀ x ∈ i.lookaheads,
        g.kinds.IsTerminal x ∧ x ≠ Symbol.placeholder ∧
          ∃ r, g.rules[i.core.rule]? = some r ∧ x ∈ g.analysis.follow r.lhs) ∧
      (∀ n x action, c.table.action? n x = some action → ∀ k, action.ReducesBy k →
        ∃ r, g.rules[k]? = some r ∧ x ∈ g.analysis.follow r.lhs) ∧
      ((c.automaton.withFollow g).ConflictFree g →
        c.automaton.ConflictFree g ∧ ∀ n x rules, c.table.action? n x ≠ some (.reduceMulti rules)) := by
  have wf := wellFormed_of_augment haugment
  obtain ⟨c, hc, -, hclosed, hfits⟩ := exists_construct_eq_ok haugment verbose
  refine ⟨c, hc, fun s hs i hi x hx => ?_, fun n x action haction k hk => ?_, fun hfollow => ?_⟩
  · obtain ⟨n, hn⟩ := Array.mem_iff_getElem?.1 hs
    have hlooks : LooksAt c.automaton.states n i.core x := ⟨s, hn, i, hi, rfl, hx⟩
    have hterminal := hclosed.isTerminal wf hlooks
    exact ⟨hterminal, wf.ne_placeholder hterminal, Augmented.mem_followOf.1 (hclosed.mem_followOf haugment hlooks)⟩
  · obtain ⟨-, core, r, rfl, -, hlooks⟩ := hfits.of_reducesBy haction hk
    exact Augmented.mem_followOf.1 (hclosed.mem_followOf haugment hlooks)
  · have hfree := hclosed.conflictFree_of_withFollow haugment hfollow
    exact ⟨hfree, Table.checkDeterministic_eq_ok_iff.1 (hfits.checkDeterministic_eq_ok hfree)⟩

/-- For nested pairs follow sets are enough: they leave no conflict, and the empty pair is reduced before the closing
token, which can follow. -/
theorem lookaheads_within_follow_nested :
    ∃ g c, nested.augment = .ok g ∧ nested.construct false = .ok c ∧ c.automaton.ConflictFree g ∧
      c.table.action? 2 ⟨11⟩ = some (.reduce 2) ∧ ⟨11⟩ ∈ g.analysis.follow ⟨1⟩ := by
  have hrun : (do
      let g ← nested.augment.toOption
      let c ← (nested.construct false).toOption
      some ((c.automaton.withFollow g).isConflictFree g, c.table.action? 2 ⟨11⟩, g.rules[2]?)) =
      some (true, some (.reduce 2), some ⟨2, ⟨1⟩, []⟩) := by decide +kernel
  obtain ⟨g, hg, hrun⟩ := Option.bind_eq_some_iff.1 hrun
  obtain ⟨c, hc, hrun⟩ := Option.bind_eq_some_iff.1 hrun
  obtain ⟨hfree, hrun⟩ := Prod.mk.inj (Option.some.inj hrun)
  obtain ⟨haction, hrule⟩ := Prod.mk.inj hrun
  rw [toOption_eq_some_iff] at hg hc
  obtain ⟨c', hc', -, hcells, hconflicts⟩ := lookaheads_within_follow hg false
  obtain rfl := Except.ok.inj (hc.symm.trans hc')
  obtain ⟨r, hr, hfollow⟩ := hcells 2 ⟨11⟩ _ haction 2 rfl
  obtain rfl := Option.some.inj (hrule.symm.trans hr)
  exact ⟨g, c, hg, hc, (hconflicts (Automaton.conflictFree_of_isConflictFree hfree)).1, haction, hfollow⟩

end Grammar

end Lalr
