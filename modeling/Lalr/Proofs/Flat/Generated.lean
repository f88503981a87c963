import Lalr.Proofs.Flat.RoundTrip
import Lalr.Proofs.Termination

/-!
# Flat forms of generated tables

The flat form of a table does not say how many states there are: reading takes the states that have cells and
the start.  A generated table comes back from its flat form when every state of the automaton has a cell.  Where
the nonterminals that occur derive terminals, this is so (`Automaton.exists_action`): a core whose dot is not at
the end gives a transition, one whose dot is at the end has a lookahead, and the state with the augmenting rule
alone accepts at the end of input.

A nonterminal without terminals can leave the last state without a cell.  It is still entered, and the flat form
cannot be read (`Grammar.exists_toTable_eq_outOfRange`).
-/

namespace Lalr

/-! ### Actions of generated tables -/

namespace Table.Fits

variable {g : Augmented} {a : Automaton} {t : Table} (h : t.Fits g a)
include h

/-- The states that an action enters are states of the automaton, and its rules are rules of the grammar. -/
lemma within (ha : a.Explored g) {n : Nat} {x : Symbol} {action : Action}
    (haction : t.action? n x = some action) : action.Within a.states.size t.rules.size := by
  have hrule {k : Nat} (hk : a.Reducible g n x k) : k < t.rules.size := by
    obtain ⟨c, r, rfl, ⟨hr, -⟩, -⟩ := hk
    rw [h.rules]
    exact (Array.getElem?_eq_some_iff.1 hr).1
  rcases h.action?_cases haction with ⟨-, m, hgoto, rfl⟩ | ⟨-, rules, hrules, hsettles⟩
  · exact Action.within_goto.2 (ha.target hgoto).2.1
  · cases action with
    | accept => exact Action.within_accept
    | shift m => exact Action.within_shift.2 (ha.target hsettles.1).2.1
    | reduce k =>
      obtain ⟨-, -, -, hmem, -⟩ := hsettles
      exact Action.within_reduce.2 (hrule ((hrules k).1 hmem))
    | reduceMulti set =>
      obtain ⟨-, -, hset, -⟩ := hsettles
      exact Action.within_reduceMulti.2 fun k hk => hrule ((hrules k).1 ((hset k).1 hk).2)
    | goto m => exact hsettles.elim

/-- A transition leaves an action in its cell. -/
lemma exists_action_of_goto (wf : g.WellFormed) (ha : a.Explored g) {n m : Nat} {x : Symbol}
    (hgoto : a.goto? n x = some m) : ∃ action, t.action? n x = some action := by
  obtain ⟨hn, -, ⟨c, rest, -, hm⟩, -⟩ := ha.target hgoto
  have hx := (hm.mem_kinds wf).1
  obtain ⟨hnonterminal, hterminal⟩ := h.holds hn hx
  by_contra! hnone
  rw [← Option.eq_none_iff_forall_ne_some] at hnone
  rw [hnone] at hnonterminal hterminal
  rcases Augmented.isTerminal_or_isNonterminal hx with hx | hx
  · obtain ⟨rules, -, htarget, -⟩ := hterminal hx
    cases htarget.symm.trans hgoto
  · have htarget := hnonterminal hx
    rw [hgoto] at htarget
    cases htarget

/-- A complete core with a lookahead leaves an action in the cell of the lookahead, unless it is that of the
augmenting rule and the lookahead is not the end of input. -/
lemma exists_action_of_completes (wf : g.WellFormed) (ha : a.Closed g) {n : Nat} {c : Core} {r : Rule}
    {x : Symbol} (hc : g.Completes c r) (hx : LooksAt a.states n c x) (hrule : c.rule = 0 → x = Symbol.eof) :
    ∃ action, t.action? n x = some action := by
  have hterminal := ha.isTerminal wf hx
  have hn := Automaton.lt_size_of_reaches (ha.reaches hx.hasAt)
  obtain ⟨rules, hrules, hsettles⟩ := (h.holds hn (Kinds.mem_iff_exists.2 ⟨_, hterminal⟩)).2 hterminal
  by_contra! hnone
  rw [← Option.eq_none_iff_forall_ne_some] at hnone
  rw [hnone] at hsettles
  obtain ⟨hzero, hnot⟩ := hsettles.2 c.rule ((hrules c.rule).2 ⟨c, r, rfl, hc, hx⟩)
  exact hnot (hrule hzero)

end Table.Fits

/-! ### Every state has a cell -/

namespace Automaton

variable {g : Augmented} {a : Automaton}

/-- Every state has a core in its kernel. -/
lemma Explored.exists_kernelAt (h : a.Explored g) {n : Nat} (hn : n < a.states.size) :
    ∃ c, KernelAt a.states n c := by
  rcases Nat.eq_zero_or_pos n with rfl | hpos
  · exact ⟨_, (h.start _).2 rfl⟩
  · obtain ⟨k, x, -, hgoto⟩ := h.entered hpos hn
    exact h.exists_kernelAt_of_goto hgoto

/-- The start symbol comes after the dot at the beginning of the augmenting rule. -/
lemma marks_start (wf : g.WellFormed) : g.Marks ⟨0, 0⟩ g.start [] :=
  ⟨_, wf.augmenting, rfl⟩

/-- A state with the complete augmenting rule alone is entered from the first state by the start symbol. -/
lemma Explored.goto?_start (wf : g.WellFormed) (h : a.Explored g) {n : Nat}
    (hkernel : ∀ c, KernelAt a.states n c ↔ c = ⟨0, 1⟩) : a.goto? 0 g.start = some n := by
  have hn := lt_size_of_reaches (.kernel ((hkernel _).2 rfl) : g.Reaches (KernelAt a.states n) ⟨0, 1⟩)
  have hpos : 0 < n := by
    refine Nat.pos_of_ne_zero ?_
    rintro rfl
    cases (h.start ⟨0, 1⟩).1 ((hkernel _).2 rfl)
  obtain ⟨k, x, -, hgoto⟩ := h.entered hpos hn
  obtain ⟨-, -, -, hmoves⟩ := h.target hgoto
  -- the state before has the augmenting rule with the dot at the beginning, and all that this brings along
  obtain ⟨⟨i, dot⟩, rest, hd, hm, hadvance⟩ := (hmoves ⟨0, 1⟩).1 ((hkernel _).2 rfl)
  obtain ⟨rfl, hdot⟩ := Core.mk.inj hadvance
  obtain rfl : dot = 0 := (Nat.succ.inj hdot).symm
  obtain ⟨rfl, -⟩ := hm.unique (marks_start wf)
  obtain ⟨m, hm'⟩ := h.exists_target ⟨_, _, .kernel ((h.start _).2 rfl), marks_start wf⟩
  obtain ⟨-, hlt, -, hmoves'⟩ := h.target hm'
  rw [hm', h.injective hlt hn]
  funext c
  refine propext ⟨fun hc => ?_, fun hc => ?_⟩
  · obtain ⟨e, rest', he, hmark, rfl⟩ := (hmoves' c).1 hc
    refine (hmoves _).2 ⟨e, rest', he.trans fun e' he' => ?_, hmark, rfl⟩
    exact (h.start e').1 he' ▸ hd
  · obtain rfl := (hkernel c).1 hc
    exact (hmoves' _).2 ⟨_, _, .kernel ((h.start _).2 rfl), marks_start wf, rfl⟩

/-- Where every core that is reached has a lookahead, every state has an action. -/
lemma exists_action (wf : g.WellFormed) (ha : a.Closed g) {t : Table} (ht : t.Fits g a)
    (hlooks : ∀ {n : Nat} {c : Core}, g.Reaches (KernelAt a.states n) c → ∃ y, LooksAt a.states n c y) {n : Nat}
    (hn : n < a.states.size) : ∃ x action, t.action? n x = some action := by
  by_cases hkernel : ∀ c, KernelAt a.states n c ↔ c = ⟨0, 1⟩
  · -- no reduction comes from the augmenting rule, but this state is the one that accepts
    have hend : LooksAt a.states n ⟨0, 1⟩ Symbol.eof :=
      ha.advance wf ha.start (marks_start wf) (ha.explored.goto?_start wf hkernel)
    exact ⟨_, ht.exists_action_of_completes wf ha ⟨wf.augmenting, rfl⟩ hend fun _ => rfl⟩
  · obtain ⟨c, hc, hne⟩ : ∃ c, KernelAt a.states n c ∧ c ≠ ⟨0, 1⟩ := by
      by_contra! hall
      obtain ⟨c, hc⟩ := ha.explored.exists_kernelAt hn
      exact hkernel fun d => ⟨hall d, fun hd => by rwa [hd, ← hall c hc]⟩
    -- a symbol after the dot gives a transition, and a dot at the end has a lookahead under which to reduce
    obtain ⟨r, hr, hdot⟩ := ha.explored.valid hc
    rcases hdot.lt_or_eq with hlt | heq
    · have hm : g.Marks c r.rhs[c.dot] (r.rhs.drop (c.dot + 1)) := ⟨r, hr, List.drop_eq_getElem_cons hlt⟩
      obtain ⟨m, hgoto⟩ := ha.explored.exists_target ⟨c, _, .kernel hc, hm⟩
      exact ⟨_, ht.exists_action_of_goto wf ha.explored hgoto⟩
    · obtain ⟨y, hy⟩ := hlooks (.kernel hc)
      refine ⟨y, ht.exists_action_of_completes wf ha ⟨hr, heq⟩ hy fun hzero => absurd ?_ hne⟩
      obtain ⟨i, dot⟩ := c
      obtain rfl : i = 0 := hzero
      obtain rfl := Option.some.inj (wf.augmenting.symm.trans hr)
      exact congrArg (Core.mk 0) heq

end Automaton

/-! ### Generated tables and their flat forms -/

namespace Table.Fits

variable {g : Augmented} {a : Automaton} {t : Table} (h : t.Fits g a)
include h

/-- The rules of a generated table are numbered by position. -/
lemma numbered (wf : g.WellFormed) : t.Numbered := by
  intro n hn
  refine wf.index_eq ?_
  rw [← h.rules]
  exact Array.getElem?_eq_getElem hn

/-- A generated table is closed when the states that are entered are below its number of states. -/
lemma closed_iff_states (ha : a.Explored g) :
    t.Closed ↔ ∀ p ∈ t.cells.toList, ∀ n ∈ p.2.entered, n < t.stateCount := by
  refine ⟨Closed.states, fun hstates => ⟨hstates, fun p hp => ?_⟩⟩
  exact (h.within ha (Std.ExtTreeMap.mem_toList_iff_getElem?_eq_some.1 hp)).2

/-- A generated table is closed when every state of the automaton has an action. -/
lemma closed (ha : a.Explored g) (hall : ∀ n < a.states.size, ∃ x action, t.action? n x = some action) :
    t.Closed := by
  rw [h.closed_iff_states ha]
  intro p hp n hn
  have hlt := (h.within ha (Std.ExtTreeMap.mem_toList_iff_getElem?_eq_some.1 hp)).1 n hn
  obtain ⟨x, action, haction⟩ := hall n hlt
  refine lt_stateCount_iff.2 (Or.inr ⟨(⟨n, x⟩, action), ?_, le_rfl⟩)
  exact Std.ExtTreeMap.mem_toList_iff_getElem?_eq_some.2 haction

end Table.Fits

namespace Grammar

variable {grammar : Grammar} {g : Augmented}

/-- A table is generated of every grammar that passes its checks, and it has a flat form if its numbers and
arrays are small enough.  It comes back from its flat form exactly when the states that are entered are below
its number of states; otherwise a number is reported as out of range.  If the nonterminals that occur derive
terminals, it comes back. -/
theorem toTable_toFlat_of_generates (haugment : grammar.augment = .ok g) (verbose : Bool) :
    ∃ c, grammar.construct verbose = .ok c ∧ (c.table.Encodable → ∃ f, c.table.toFlat = .ok f ∧
      (f.toTable = .ok c.table ↔
        ∀ p ∈ c.table.cells.toList, ∀ n ∈ p.2.entered, n < c.table.stateCount) ∧
      (f.toTable = .ok c.table ∨ ∃ what value, f.toTable = .error (.outOfRange what value)) ∧
      ((∀ A, grammar.classification.IsNonterminal A → grammar.Occurs A →
          Generates grammar.augmentedProductions grammar.classification [A]) →
        f.toTable = .ok c.table)) := by
  have wf := wellFormed_of_augment haugment
  obtain ⟨c, hc, -, hclosed, hfits⟩ := exists_construct_eq_ok haugment verbose
  refine ⟨c, hc, fun hencodable => ?_⟩
  obtain ⟨f, hf⟩ := hencodable.exists_toFlat
  have hback (h : c.table.Closed) : f.toTable = .ok c.table := by
    rw [Table.toTable_of_toFlat hf h, Table.renumber_eq_iff.2 (hfits.numbered wf)]
  refine ⟨f, hf, ?_, ?_, fun hgenerates => hback (hfits.closed hclosed.explored fun n hn => ?_)⟩
  · rw [← hfits.closed_iff_states hclosed.explored]
    refine ⟨fun h => ?_, hback⟩
    by_contra hnot
    obtain ⟨what, value, herror⟩ := Table.toTable_eq_outOfRange_of_toFlat hf hnot
    cases h.symm.trans herror
  · by_cases h : c.table.Closed
    · exact Or.inl (hback h)
    · exact Or.inr (Table.toTable_eq_outOfRange_of_toFlat hf h)
  · exact Automaton.exists_action wf hclosed hfits
      (fun hreach => exists_looksAt_of_reaches haugment hgenerates hclosed hreach) hn

/-- The table of nested pairs comes back from its flat form. -/
theorem toTable_toFlat_of_generates_nested :
    ∃ c f, nested.construct false = .ok c ∧ c.table.toFlat = .ok f ∧ f.toTable = .ok c.table := by
  obtain ⟨g, hg⟩ := exists_augment_nested
  obtain ⟨c, hc, hflat⟩ := toTable_toFlat_of_generates hg false
  have hrun : ((nested.construct false).toOption.map fun c => decide c.table.Encodable) = some true := by
    decide +kernel
  rw [toOption_eq_some_iff.2 hc, Option.map_some, Option.some.injEq, decide_eq_true_iff] at hrun
  obtain ⟨f, hf, -, -, hback⟩ := hflat hrun
  exact ⟨c, f, hc, hf, hback fun A hA _ => generates_nested hA⟩

/-- A nonterminal that derives no terminals after one that does: `S ::= A B`, `A ::= a a a`, `B ::= B b`, with
the symbols `S = 1`, `A = 2`, `B = 3`, `a = 10` and `b = 11`. -/
def stranded : Grammar :=
  ofProductions [(⟨1⟩, [⟨2⟩, ⟨3⟩]), (⟨2⟩, [⟨10⟩, ⟨10⟩, ⟨10⟩]), (⟨3⟩, [⟨3⟩, ⟨11⟩])]

/-- Nothing can follow `a a a`, so that the last state has no cell.  The table passes its check and has a flat
form, but the flat form has too few states for the shift to the last one and cannot be read. -/
theorem exists_toTable_eq_outOfRange :
    ∃ c f, stranded.construct false = .ok c ∧ c.table.checkDeterministic = .ok () ∧ c.table.Encodable ∧
      c.table.toFlat = .ok f ∧ f.toTable = .error (.outOfRange "shift state" 7) := by
  have hrun : (do
      let c ← (stranded.construct false).toOption
      let _ ← c.table.checkDeterministic.toOption
      let f ← c.table.toFlat.toOption
      some (decide c.table.Encodable, decide (f.toTable = .error (.outOfRange "shift state" 7)))) =
      some (true, true) := by decide +kernel
  obtain ⟨c, hc, hrun⟩ := Option.bind_eq_some_iff.1 hrun
  obtain ⟨⟨⟩, hcheck, hrun⟩ := Option.bind_eq_some_iff.1 hrun
  obtain ⟨f, hf, hrun⟩ := Option.bind_eq_some_iff.1 hrun
  obtain ⟨hencodable, herror⟩ := Prod.mk.inj (Option.some.inj hrun)
  exact ⟨c, f, toOption_eq_some_iff.1 hc, toOption_eq_some_iff.1 hcheck, of_decide_eq_true hencodable,
    toOption_eq_some_iff.1 hf, of_decide_eq_true herror⟩

end Grammar

end Lalr
