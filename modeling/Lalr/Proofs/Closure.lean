import Lalr.Automaton.Closure
import Lalr.Proofs.ItemSet
import Lalr.Proofs.WellFormed

/-!
# Closures

A core *opens* a rule when the left-hand side of the rule stands right after its dot.  Two closures are
defined from this, both as inductive relations.  `Reaches` leaves lookaheads out of account.  `Closes` starts
from a set of cores and from lookaheads of some of them, and hands down to the opened rules what can begin
the rest of the body.

An item set is *closed* when every rule that one of its items opens has an item at its beginning with all that
is handed down to it; where nothing is handed down, nothing is asked for.  These are the sets from which a step
of the computation changes nothing.

The computed closure of an item set succeeds and is `Closes` of what the set holds (`exists_close_eq_ok`).
The last block is about closures from a single core whose only lookahead is the placeholder: where the
placeholder arrives, so does any lookahead of the core, and what else arrives does so in every closure in
which the core has some lookahead.
-/

namespace Lalr

namespace Augmented

/-! ### What stands after a dot -/

/-- The symbol `x` stands right after the dot, and `rest` comes after it. -/
def Marks (g : Augmented) (c : Core) (x : Symbol) (rest : Body) : Prop :=
  ∃ r, g.rules[c.rule]? = some r ∧ r.rhs.drop c.dot = x :: rest

/-- The left-hand side of rule number `n` stands right after the dot, and `rest` comes after it. -/
def Opens (g : Augmented) (c : Core) (n : Nat) (rest : Body) : Prop :=
  ∃ r, g.rules[n]? = some r ∧ g.Marks c r.lhs rest

/-- The core belongs to a rule, and its dot stands in the body or at its end. -/
def Valid (g : Augmented) (c : Core) : Prop :=
  ∃ r, g.rules[c.rule]? = some r ∧ c.dot ≤ r.rhs.length

/-- The closure of a set of cores, lookaheads left out of account. -/
inductive Reaches (g : Augmented) (K : Core → Prop) : Core → Prop
  /-- The cores of the set are reached. -/
  | kernel {c : Core} (h : K c) : Reaches g K c
  /-- A reached core reaches the rules that it opens. -/
  | expand {c : Core} {n : Nat} {rest : Body} (h : Reaches g K c) (ho : g.Opens c n rest) :
      Reaches g K ⟨n, 0⟩

/-- The lookaheads in the closure of a set `K` of cores of which some have lookaheads `L`. -/
inductive Closes (g : Augmented) (K : Core → Prop) (L : Core → Symbol → Prop) : Core → Symbol → Prop
  /-- The given lookaheads remain. -/
  | seed {c : Core} {x : Symbol} (h : L c x) : Closes g K L c x
  /-- A core of the set hands down what begins the rest of its body. -/
  | begin {c : Core} {n : Nat} {rest : Body} {x : Symbol} (h : K c) (ho : g.Opens c n rest)
      (hx : Starts g.productions g.kinds rest x) : Closes g K L ⟨n, 0⟩ x
  /-- A core with a lookahead hands down what begins the rest of its body with the lookahead behind it. -/
  | expand {c : Core} {n : Nat} {rest : Body} {x y : Symbol} (h : Closes g K L c y)
      (ho : g.Opens c n rest) (hx : Leads g.productions g.kinds rest y x) : Closes g K L ⟨n, 0⟩ x

variable {g : Augmented}

/-- The symbol after the dot is found by position. -/
lemma Marks.getElem? {c : Core} {x : Symbol} {rest : Body} (h : g.Marks c x rest) :
    ∃ r, g.rules[c.rule]? = some r ∧ r.rhs[c.dot]? = some x ∧ r.rhs.drop (c.dot + 1) = rest := by
  obtain ⟨r, hr, hdrop⟩ := h
  refine ⟨r, hr, ?_, ?_⟩
  · rw [← List.head?_drop, hdrop, List.head?_cons]
  · rw [← List.tail_drop, hdrop, List.tail_cons]

/-- A symbol found at the position of the dot stands right after it. -/
lemma marks_of_getElem? {c : Core} {r : Rule} {x : Symbol} (hr : g.rules[c.rule]? = some r)
    (hx : r.rhs[c.dot]? = some x) : g.Marks c x (r.rhs.drop (c.dot + 1)) := by
  obtain ⟨hlt, rfl⟩ := List.getElem?_eq_some_iff.1 hx
  exact ⟨r, hr, List.drop_eq_getElem_cons hlt⟩

/-- Only one symbol stands right after a dot. -/
lemma Marks.unique {c : Core} {x y : Symbol} {rest rest' : Body} (h : g.Marks c x rest)
    (h' : g.Marks c y rest') : x = y ∧ rest = rest' := by
  obtain ⟨r, hr, hdrop⟩ := h
  obtain ⟨r', hr', hdrop'⟩ := h'
  obtain rfl : r = r' := Option.some.inj (hr.symm.trans hr')
  exact List.cons.inj (hdrop.symm.trans hdrop')

/-- Moving the dot over a symbol gives a valid core. -/
lemma Marks.valid_advance {c : Core} {x : Symbol} {rest : Body} (h : g.Marks c x rest) :
    g.Valid c.advance := by
  obtain ⟨r, hr, hx, -⟩ := h.getElem?
  exact ⟨r, hr, (List.getElem?_eq_some_iff.1 hx).1⟩

/-- The closure of a larger set is larger. -/
lemma Reaches.mono {K K' : Core → Prop} (hK : ∀ c, K c → K' c) {c : Core} (h : g.Reaches K c) :
    g.Reaches K' c := by
  induction h with
  | kernel h => exact .kernel (hK _ h)
  | expand _ ho ih => exact .expand ih ho

/-- What is reached from cores that are reached is reached. -/
lemma Reaches.trans {K K' : Core → Prop} (hK : ∀ c, K' c → g.Reaches K c) {c : Core}
    (h : g.Reaches K' c) : g.Reaches K c := by
  induction h with
  | kernel h => exact hK _ h
  | expand _ ho ih => exact .expand ih ho

/-- A core with a lookahead in the closure is reached. -/
lemma Closes.reaches {K : Core → Prop} {L : Core → Symbol → Prop} (hL : ∀ c x, L c x → K c)
    {c : Core} {x : Symbol} (h : g.Closes K L c x) : g.Reaches K c := by
  induction h with
  | seed h => exact .kernel (hL _ _ h)
  | begin h ho _ => exact .expand (.kernel h) ho
  | expand _ ho _ ih => exact .expand ih ho

/-- The lookaheads in a closure are terminals when the given ones are. -/
lemma Closes.isTerminal {K : Core → Prop} {L : Core → Symbol → Prop}
    (hL : ∀ c x, L c x → g.kinds.IsTerminal x) {c : Core} {x : Symbol} (h : g.Closes K L c x) :
    g.kinds.IsTerminal x := by
  induction h with
  | seed h => exact hL _ _ h
  | begin _ _ hx => exact hx.isTerminal
  | expand _ _ hx ih => exact hx.isTerminal ih

section

variable (wf : g.WellFormed)
include wf

/-- A core opens the rules that are listed under the symbol after its dot. -/
lemma opens_iff {c : Core} {n : Nat} {rest : Body} :
    g.Opens c n rest ↔ ∃ A, g.Marks c A rest ∧ n ∈ g.rulesOf A := by
  constructor
  · rintro ⟨r, hr, hm⟩
    exact ⟨r.lhs, hm, wf.mem_rulesOf.2 ⟨r, hr, rfl⟩⟩
  · rintro ⟨A, hm, hn⟩
    obtain ⟨r, hr, rfl⟩ := wf.mem_rulesOf.1 hn
    exact ⟨r, hr, hm⟩

omit wf in
/-- What is reached from valid cores is valid. -/
lemma Reaches.valid {K : Core → Prop} (hK : ∀ c, K c → g.Valid c) {c : Core} (h : g.Reaches K c) :
    g.Valid c := by
  induction h with
  | kernel h => exact hK _ h
  | expand _ ho _ =>
    obtain ⟨r, hr, -⟩ := ho
    exact ⟨r, hr, Nat.zero_le _⟩

/-- A marked symbol has a kind. -/
lemma Marks.mem_kinds {c : Core} {x : Symbol} {rest : Body} (h : g.Marks c x rest) :
    x ∈ g.kinds ∧ ∀ y ∈ rest, y ∈ g.kinds := by
  obtain ⟨r, hr, hdrop⟩ := h
  have hall : ∀ y ∈ x :: rest, y ∈ g.kinds := fun y hy =>
    wf.mem_kinds hr y (List.mem_of_mem_drop (hdrop ▸ hy))
  exact List.forall_mem_cons.1 hall

/-! ### One step of the computed closure -/

omit wf in
/-- The lookaheads that an item hands down to the rules it opens. -/
def handedDown (g : Augmented) (rest : Body) (lookaheads : SymbolSet) : SymbolSet :=
  if g.analysis.allNullable rest then g.analysis.firstOfAll rest ∪ lookaheads
  else g.analysis.firstOfAll rest

/-- An item hands down what begins the rest of its body and, past a nullable rest, its own lookaheads. -/
lemma mem_handedDown {rest : Body} {lookaheads : SymbolSet} {x : Symbol} :
    x ∈ g.handedDown rest lookaheads ↔ Starts g.productions g.kinds rest x ∨
      (∀ y ∈ rest, Nullable g.productions y) ∧ x ∈ lookaheads := by
  unfold handedDown
  rw [← wf.mem_firstOfAll, ← wf.allNullable_iff]
  by_cases hnull : g.analysis.allNullable rest = true
  · simp [hnull, Std.ExtTreeSet.mem_union_iff]
  · simp [hnull]

omit wf in
/-- An item whose dot stands at the end calls for nothing. -/
lemma expand_eq_nil {i : Item} {r : Rule} (hr : g.rules[i.core.rule]? = some r)
    (hnone : r.rhs[i.core.dot]? = none) : g.expand i = .ok [] := by
  simp [expand, Core.rule?, hr, hnone, bind, Except.bind]

/-- An item whose dot stands before a symbol calls for the rules of the symbol, provided that there are
lookaheads to hand down. -/
lemma expand_eq_map {i : Item} {A : Symbol} {rest : Body} (hm : g.Marks i.core A rest) :
    g.expand i = .ok (if (g.handedDown rest i.lookaheads).isEmpty then [] else
      (g.rulesOf A).map fun n => ⟨⟨n, 0⟩, false, g.handedDown rest i.lookaheads⟩) := by
  obtain ⟨r, hr, hx, hrest⟩ := hm.getElem?
  have hkinds := (hm.mem_kinds wf).2
  unfold expand Core.rule?
  simp only [hr, hx, bind, Except.bind, hrest, wf.firstOfAll?_eq hkinds]
  by_cases hA : g.isNonterminal A = true
  · rw [if_pos hA, apply_ite Except.ok]
    rfl
  · have hnone : g.rulesOf A = [] := by
      refine List.eq_nil_iff_forall_not_mem.2 fun n hn => hA ?_
      obtain ⟨r', hr', rfl⟩ := wf.mem_rulesOf.1 hn
      exact isNonterminal_iff.2 (wf.isNonterminal_lhs hr')
    rw [if_neg hA, hnone]
    simp

/-- What an item calls for: the rules that its core opens, each with the lookaheads that are handed down,
where there are any. -/
lemma exists_expand_eq_ok {i : Item} (hi : g.Valid i.core) :
    ∃ items, g.expand i = .ok items ∧
      (∀ j ∈ items, j.isKernel = false ∧ ∃ x, x ∈ j.lookaheads) ∧
      ∀ c x, (∃ j ∈ items, j.core = c ∧ x ∈ j.lookaheads) ↔
        ∃ n rest, c = ⟨n, 0⟩ ∧ g.Opens i.core n rest ∧
          (Starts g.productions g.kinds rest x ∨
            (∀ y ∈ rest, Nullable g.productions y) ∧ x ∈ i.lookaheads) := by
  obtain ⟨r, hr, -⟩ := hi
  cases hmark : r.rhs[i.core.dot]? with
  | none =>
    refine ⟨[], expand_eq_nil hr hmark, by simp, fun c x => ?_⟩
    simp only [List.not_mem_nil, false_and, exists_false, false_iff]
    rintro ⟨n, rest, -, ⟨q, -, hm⟩, -⟩
    obtain ⟨r', hr', hx, -⟩ := hm.getElem?
    obtain rfl := Option.some.inj (hr.symm.trans hr')
    exact absurd (hmark.symm.trans hx) nofun
  | some A =>
    have hm := marks_of_getElem? hr hmark
    set rest := r.rhs.drop (i.core.dot + 1)
    refine ⟨_, expand_eq_map wf hm, ?_, fun c x => ?_⟩
    · intro j hj
      by_cases hempty : (g.handedDown rest i.lookaheads).isEmpty = true
      · simp [hempty] at hj
      · rw [if_neg hempty] at hj
        obtain ⟨n, -, rfl⟩ := List.mem_map.1 hj
        refine ⟨rfl, ?_⟩
        by_contra hnone
        exact hempty (Std.ExtTreeSet.isEmpty_iff.2 (Std.ExtTreeSet.eq_empty_iff_forall_not_mem.2
          fun x hx => hnone ⟨x, hx⟩))
    · simp only [← mem_handedDown wf]
      constructor
      · rintro ⟨j, hj, rfl, hx⟩
        split at hj
        · simp at hj
        · obtain ⟨n, hn, rfl⟩ := List.mem_map.1 hj
          exact ⟨n, rest, rfl, (opens_iff wf).2 ⟨A, hm, hn⟩, hx⟩
      · rintro ⟨n, rest', rfl, ho, hx⟩
        obtain ⟨B, hB, hn⟩ := (opens_iff wf).1 ho
        obtain ⟨rfl, rfl⟩ := hm.unique hB
        rw [if_neg fun hempty => Std.ExtTreeSet.not_mem_empty (Std.ExtTreeSet.isEmpty_iff.1 hempty ▸ hx)]
        exact ⟨_, List.mem_map.2 ⟨n, hn, rfl⟩, rfl, hx⟩

/-- One step adds what all the items call for.  A core is added when some lookahead is. -/
lemma exists_closeStep_eq_ok {s : ItemSet} (hs : ∀ c, s.Has c → g.Valid c) :
    ∃ t changed, g.closeStep s = .ok (t, changed) ∧
      (∀ c, t.HasKernel c ↔ s.HasKernel c) ∧ (s.Distinct → t.Distinct) ∧
      (∀ c, t.Has c ↔ s.Has c ∨ ∃ x, t.Looks c x) ∧
      (∀ c x, t.Looks c x ↔ s.Looks c x ∨ ∃ d n rest, s.Has d ∧ g.Opens d n rest ∧ c = ⟨n, 0⟩ ∧
        (Starts g.productions g.kinds rest x ∨
          (∀ y ∈ rest, Nullable g.productions y) ∧ s.Looks d x)) ∧
      (changed = false → t = s) ∧ (changed = true → s.weight < t.weight) := by
  -- what is called for, item by item
  obtain ⟨added, hadded, hof, hto⟩ := exists_mapM_eq_ok_and fun i hi =>
    exists_expand_eq_ok wf (hs i.core ⟨i, hi, rfl⟩)
  have hkernel : ∀ j ∈ added.flatten, j.isKernel = false ∧ ∃ x, x ∈ j.lookaheads := by
    intro j hj
    obtain ⟨items, hitems, hj⟩ := List.mem_flatten.1 hj
    obtain ⟨i, -, hall, -⟩ := hof items hitems
    exact hall j hj
  refine ⟨_, _, by rw [closeStep, hadded]; rfl, ?_, fun h => h.merge _, ?_, ?_, ?_, ?_⟩
  · exact fun c => ItemSet.hasKernel_merge fun j hj => (hkernel j hj).1
  · intro c
    constructor
    · intro hc
      rcases ItemSet.has_merge.1 hc with hc | ⟨j, hj, rfl⟩
      · exact Or.inl hc
      · obtain ⟨x, hx⟩ := (hkernel j hj).2
        exact Or.inr ⟨x, ItemSet.looks_merge.2 (Or.inr ⟨j, hj, rfl, hx⟩)⟩
    · rintro (hc | ⟨x, hx⟩)
      · exact ItemSet.has_merge.2 (Or.inl hc)
      · exact hx.has
  · intro c x
    rw [ItemSet.looks_merge]
    refine or_congr_right ⟨?_, ?_⟩
    · rintro ⟨j, hj, rfl, hx⟩
      obtain ⟨items, hitems, hj⟩ := List.mem_flatten.1 hj
      obtain ⟨i, hi, -, hiff⟩ := hof items hitems
      obtain ⟨n, rest, hn, ho, hx⟩ := (hiff j.core x).1 ⟨j, hj, rfl, hx⟩
      refine ⟨i.core, n, rest, ⟨i, hi, rfl⟩, ho, hn, hx.imp_right fun hx => ⟨hx.1, i, hi, rfl, hx.2⟩⟩
    · rintro ⟨d, n, rest, ⟨i, hi, rfl⟩, ho, rfl, hx⟩
      have hx' : ∃ k ∈ s.items, k.core = i.core ∧ (Starts g.productions g.kinds rest x ∨
          (∀ y ∈ rest, Nullable g.productions y) ∧ x ∈ k.lookaheads) := by
        rcases hx with hx | ⟨hnull, k, hk, hcore, hx⟩
        · exact ⟨i, hi, rfl, Or.inl hx⟩
        · exact ⟨k, hk, hcore, Or.inr ⟨hnull, hx⟩⟩
      obtain ⟨k, hk, hcore, hx⟩ := hx'
      obtain ⟨items, hitems, -, hiff⟩ := hto k hk
      obtain ⟨j, hj, hjc, hjx⟩ := (hiff ⟨n, 0⟩ x).2 ⟨n, rest, rfl, hcore ▸ ho, hx⟩
      exact ⟨j, List.mem_flatten.2 ⟨items, hitems, hj⟩, hjc, hjx⟩
  · exact ItemSet.merge_eq_of_unchanged
  · exact (ItemSet.weight_merge s _).2

/-! ### Closed sets -/

omit wf in
/-- Each rule that an item opens has an item at its beginning with all the lookaheads that are handed down to it,
provided that there are any. -/
def IsClosed (g : Augmented) (s : ItemSet) : Prop :=
  ∀ i ∈ s.items, ∀ n rest, g.Opens i.core n rest → (∃ x, x ∈ g.handedDown rest i.lookaheads) →
    ∃ j ∈ s.items, j.core = ⟨n, 0⟩ ∧ ∀ x ∈ g.handedDown rest i.lookaheads, x ∈ j.lookaheads

/-- A set is closed when its lookaheads follow those of its items down to the rules that they open. -/
lemma isClosed_iff {s : ItemSet} (hs : s.Distinct) :
    g.IsClosed s ↔ ∀ c n rest x, s.Has c → g.Opens c n rest →
      (Starts g.productions g.kinds rest x ∨ (∀ y ∈ rest, Nullable g.productions y) ∧ s.Looks c x) →
      s.Looks ⟨n, 0⟩ x := by
  constructor
  · rintro h c n rest x ⟨i, hi, rfl⟩ ho hx
    have hmem : x ∈ g.handedDown rest i.lookaheads :=
      (mem_handedDown wf).2 (hx.imp_right fun hx => ⟨hx.1, hs.mem_of_looks hi hx.2⟩)
    obtain ⟨j, hj, hcore, hsub⟩ := h i hi n rest ho ⟨x, hmem⟩
    exact ⟨j, hj, hcore, hsub x hmem⟩
  · intro h i hi n rest ho ⟨x, hx⟩
    have hlooks {y : Symbol} (hy : y ∈ g.handedDown rest i.lookaheads) : s.Looks ⟨n, 0⟩ y :=
      h i.core n rest y ⟨i, hi, rfl⟩ ho
        (((mem_handedDown wf).1 hy).imp_right fun hy => ⟨hy.1, i, hi, rfl, hy.2⟩)
    obtain ⟨j, hj, hcore, -⟩ := hlooks hx
    exact ⟨j, hj, hcore, fun y hy => hs.mem_of_looks hj (hcore ▸ hlooks hy)⟩

/-- A closed set that has the cores and the lookaheads of another one has all the lookaheads of its closure. -/
lemma IsClosed.looks_of_closes {s u : ItemSet} (hu : u.Distinct) (hclosed : g.IsClosed u)
    (hhas : ∀ c, s.Has c → u.Has c) (hlooks : ∀ c x, s.Looks c x → u.Looks c x) {c : Core} {x : Symbol}
    (h : g.Closes s.Has s.Looks c x) : u.Looks c x := by
  have hstep := (isClosed_iff wf hu).1 hclosed
  induction h with
  | seed h => exact hlooks _ _ h
  | begin h ho hx => exact hstep _ _ _ _ (hhas _ h) ho (Or.inl hx)
  | expand _ ho hx ih =>
    refine hstep _ _ _ _ ih.has ho ?_
    rcases hx with hx | ⟨hnull, rfl⟩
    · exact Or.inl hx
    · exact Or.inr ⟨hnull, ih⟩

/-- A step from a closed set changes nothing. -/
lemma IsClosed.closeStep_eq {s : ItemSet} (hclosed : g.IsClosed s) (hs : s.Distinct)
    (hvalid : ∀ c, s.Has c → g.Valid c) : g.closeStep s = .ok (s, false) := by
  obtain ⟨added, hadded⟩ := exists_mapM_eq_ok fun i hi =>
    (exists_expand_eq_ok wf (hvalid i.core ⟨i, hi, rfl⟩)).imp fun _ h => h.1
  have hanswered : ∀ j ∈ added.flatten, ∃ k ∈ s.items, k.core = j.core ∧ ∀ x ∈ j.lookaheads, x ∈ k.lookaheads := by
    intro j hj
    obtain ⟨items, hitems, hj⟩ := List.mem_flatten.1 hj
    obtain ⟨i, hi, hexpand⟩ := (mem_of_mapM_eq_ok hadded).1 hitems
    obtain ⟨items', hexpand', hnonempty, hiff⟩ := exists_expand_eq_ok wf (hvalid i.core ⟨i, hi, rfl⟩)
    obtain rfl := Except.ok.inj (hexpand.symm.trans hexpand')
    -- each lookahead of the added item is handed down, and the closed set has it
    have hlooks : ∀ x ∈ j.lookaheads, s.Looks j.core x := by
      intro x hx
      obtain ⟨n, rest, hcore, ho, hx⟩ := (hiff j.core x).1 ⟨j, hj, rfl, hx⟩
      rw [hcore]
      exact (isClosed_iff wf hs).1 hclosed i.core n rest x ⟨i, hi, rfl⟩ ho
        (hx.imp_right fun hx => ⟨hx.1, i, hi, rfl, hx.2⟩)
    obtain ⟨-, x, hx⟩ := hnonempty j hj
    obtain ⟨k, hk, hcore, -⟩ := hlooks x hx
    exact ⟨k, hk, hcore, fun y hy => hs.mem_of_looks hk (hcore ▸ hlooks y hy)⟩
  rw [closeStep, hadded]
  exact congrArg Except.ok (hs.merge_eq_self hanswered)

/-- A set from which a step changes nothing is closed. -/
lemma isClosed_of_closeStep_eq {s : ItemSet} (hs : s.Distinct) (hvalid : ∀ c, s.Has c → g.Valid c)
    (h : g.closeStep s = .ok (s, false)) : g.IsClosed s := by
  obtain ⟨t, changed, ht, -, -, -, hlooks, -⟩ := exists_closeStep_eq_ok wf hvalid
  obtain ⟨rfl, rfl⟩ := Prod.mk.inj (Except.ok.inj (h.symm.trans ht))
  exact (isClosed_iff wf hs).2 fun c n rest x hc ho hx => (hlooks _ _).2 (Or.inr ⟨c, n, rest, hc, ho, rfl, hx⟩)

/-! ### The computed closure -/

omit wf in
/-- What holds of an item set `t` on the way to the closure of `s`: the kernel and all that `s` holds are
there, and nothing that is not in the closure. -/
structure Between (g : Augmented) (s t : ItemSet) : Prop where
  distinct : t.Distinct
  hasKernel : ∀ c, t.HasKernel c ↔ s.HasKernel c
  has_of : ∀ c, s.Has c → t.Has c
  looks_of : ∀ c x, s.Looks c x → t.Looks c x
  has : ∀ c, t.Has c → s.Has c ∨ ∃ x, g.Closes s.Has s.Looks c x
  looks : ∀ c x, t.Looks c x → g.Closes s.Has s.Looks c x

omit wf in
/-- A set stands at the beginning of the way to its closure. -/
lemma Between.refl {s : ItemSet} (hs : s.Distinct) : Between g s s :=
  ⟨hs, fun _ => Iff.rfl, fun _ => id, fun _ _ => id, fun _ => Or.inl, fun _ _ => .seed⟩

omit wf in
/-- The cores on the way to the closure of valid cores are valid. -/
lemma Between.valid {s t : ItemSet} (h : Between g s t) (hs : ∀ c, s.Has c → g.Valid c) :
    ∀ c, t.Has c → g.Valid c := by
  intro c hc
  rcases h.has c hc with hc | ⟨x, hx⟩
  · exact hs c hc
  · exact (hx.reaches fun _ _ hl => hl.has).valid hs

/-- A step stays on the way to the closure. -/
lemma Between.closeStep {s t u : ItemSet} {changed : Bool} (h : Between g s t)
    (hs : ∀ c, s.Has c → g.Valid c) (hu : g.closeStep t = .ok (u, changed)) : Between g s u := by
  obtain ⟨u', changed', hu', hkernel, hdistinct, hhas, hlooks, -⟩ :=
    exists_closeStep_eq_ok wf (h.valid hs)
  obtain ⟨rfl, rfl⟩ := Prod.mk.inj (Except.ok.inj (hu.symm.trans hu'))
  have hclosed : ∀ c x, u.Looks c x → g.Closes s.Has s.Looks c x := by
    intro c x hcx
    rcases (hlooks c x).1 hcx with hx | ⟨d, n, rest, hd, ho, rfl, hx⟩
    · exact h.looks c x hx
    · rcases hx with hx | ⟨hnull, hx⟩
      · -- the opening core may be there without a lookahead only if it was given
        rcases h.has d hd with hd | ⟨y, hy⟩
        · exact .begin hd ho hx
        · exact .expand hy ho (Or.inl hx)
      · exact .expand (h.looks d x hx) ho (leads_self hnull x)
  refine ⟨hdistinct h.distinct, fun c => (hkernel c).trans (h.hasKernel c),
    fun c hc => (hhas c).2 (Or.inl (h.has_of c hc)),
    fun c x hx => (hlooks c x).2 (Or.inl (h.looks_of c x hx)),
    fun c hc => ?_, hclosed⟩
  rcases (hhas c).1 hc with hc | ⟨x, hx⟩
  · exact h.has c hc
  · exact Or.inr ⟨x, hclosed c x hx⟩

omit wf in
/-- A bound on the size of each lookahead set bounds the weight. -/
lemma weightOf_le {bound : Nat} {items : List Item} (h : ∀ i ∈ items, i.lookaheads.size ≤ bound) :
    ItemSet.weightOf items ≤ items.length * (bound + 1) := by
  induction items with
  | nil => simp [ItemSet.weightOf]
  | cons i items ih =>
    have hi := h i List.mem_cons_self
    have hrest := ih fun j hj => h j (List.mem_cons_of_mem i hj)
    rw [ItemSet.weightOf, List.length_cons, Nat.succ_mul]
    omega

omit wf in
/-- The fuel of the closure bounds the weight of the sets on the way. -/
lemma Between.weight_lt_closeFuel {s t : ItemSet} (h : Between g s t) : t.weight < g.closeFuel s := by
  set pool := g.kinds.keys ++ s.items.flatMap fun i => i.lookaheads.toList with hpool
  -- a lookahead is given or is a terminal
  have hlooks : ∀ c x, g.Closes s.Has s.Looks c x → x ∈ pool := by
    intro c x hx
    have hstarts {rest : Body} {x : Symbol} (hx : Starts g.productions g.kinds rest x) : x ∈ pool :=
      List.mem_append_left _ (Std.ExtTreeMap.mem_keys.2 (mem_kinds_of_isTerminal hx.isTerminal))
    induction hx with
    | seed hx =>
      obtain ⟨i, hi, -, hx⟩ := hx
      exact List.mem_append_right _ (List.mem_flatMap.2 ⟨i, hi, Std.ExtTreeSet.mem_toList.2 hx⟩)
    | begin _ _ hx => exact hstarts hx
    | expand _ _ hx ih =>
      rcases hx with hx | ⟨-, rfl⟩
      · exact hstarts hx
      · exact ih
  have hsize : ∀ i ∈ t.items, i.lookaheads.size ≤ pool.length := by
    intro i hi
    rw [← SymbolSet.card_toFinset]
    refine (Finset.card_le_card fun x hx => ?_).trans pool.toFinset_card_le
    exact List.mem_toFinset.2 (hlooks _ _ (h.looks i.core x ⟨i, hi, rfl, SymbolSet.mem_toFinset.1 hx⟩))
  have hcores : t.items.length ≤ s.items.length + g.rules.size := by
    have hsub : t.items.map Item.core ⊆
        s.items.map Item.core ++ (List.range g.rules.size).map fun n => (⟨n, 0⟩ : Core) := by
      intro c hc
      rcases h.has c (List.mem_map.1 hc) with hc | ⟨x, hx⟩
      · exact List.mem_append_left _ (List.mem_map.2 hc)
      · refine List.mem_append.2 ?_
        have hopened {n : Nat} {c : Core} {rest : Body} (ho : g.Opens c n rest) : n < g.rules.size := by
          obtain ⟨r, hr, -⟩ := ho
          exact (Array.getElem?_eq_some_iff.1 hr).1
        cases hx with
        | seed hx => exact Or.inl (List.mem_map.2 hx.has)
        | begin _ ho _ => exact Or.inr (List.mem_map.2 ⟨_, List.mem_range.2 (hopened ho), rfl⟩)
        | expand _ ho _ => exact Or.inr (List.mem_map.2 ⟨_, List.mem_range.2 (hopened ho), rfl⟩)
    have hle := (List.Nodup.subperm h.distinct hsub).length_le
    simpa using hle
  have hlength : pool.length = s.items.foldl (fun count i => count + i.lookaheads.size) g.kinds.size := by
    rw [SymbolSet.foldl_size_eq Item.lookaheads, hpool, List.length_append, Std.ExtTreeMap.length_keys]
  have hweight : t.weight ≤ t.items.length * (pool.length + 1) := weightOf_le hsize
  have hproduct := Nat.mul_le_mul_right (pool.length + 1) hcores
  unfold closeFuel
  rw [← hlength]
  exact Nat.lt_succ_of_le (hweight.trans hproduct)

/-- The closure of valid cores succeeds.  It keeps the kernel, it has the given cores and those that get a
lookahead, and its lookaheads are those of the relation `Closes`. -/
theorem exists_close_eq_ok {s : ItemSet} (hdistinct : s.Distinct) (hs : ∀ c, s.Has c → g.Valid c) :
    ∃ t, g.close s = .ok t ∧ t.Distinct ∧ (∀ c, t.HasKernel c ↔ s.HasKernel c) ∧
      (∀ c, t.Has c ↔ s.Has c ∨ ∃ x, g.Closes s.Has s.Looks c x) ∧
      ∀ c x, t.Looks c x ↔ g.Closes s.Has s.Looks c x := by
  have hrefl : Between g s s := .refl hdistinct
  obtain ⟨t, count, hsettle⟩ : ∃ t count, settle g.closeStep (g.closeFuel s) s = .ok (t, count) := by
    refine exists_settle_eq_ok (P := Between g s) ItemSet.weight (g.closeFuel s - 1)
      (fun a ha => ?_) (fun a ha => ?_) hrefl ?_
    · obtain ⟨b, changed, hb, -, -, -, -, -, hlt⟩ := exists_closeStep_eq_ok wf (ha.valid hs)
      exact ⟨b, changed, hb, ha.closeStep wf hs hb, hlt⟩
    · exact Nat.le_sub_one_of_lt (ha.weight_lt_closeFuel)
    · have := hrefl.weight_lt_closeFuel
      omega
  -- the last step has changed nothing
  obtain ⟨u, hu, hlast⟩ :=
    exists_last_of_settle (fun a b changed ha hb => ha.closeStep wf hs hb) hrefl hsettle
  obtain ⟨t', changed, ht', -, -, -, -, heq, -⟩ := exists_closeStep_eq_ok wf (hu.valid hs)
  obtain ⟨rfl, rfl⟩ := Prod.mk.inj (Except.ok.inj (hlast.symm.trans ht'))
  obtain rfl := heq rfl
  have hclosed : g.IsClosed t := isClosed_of_closeStep_eq wf hu.distinct (hu.valid hs) hlast
  have hlooks (c : Core) (x : Symbol) : t.Looks c x ↔ g.Closes s.Has s.Looks c x :=
    ⟨hu.looks c x, hclosed.looks_of_closes wf hu.distinct hu.has_of hu.looks_of⟩
  refine ⟨{ t with isClosed := true }, by rw [close, hsettle]; rfl, hu.distinct, hu.hasKernel, fun c => ?_,
    hlooks⟩
  refine ⟨hu.has c, ?_⟩
  rintro (hc | ⟨x, hx⟩)
  · exact hu.has_of c hc
  · exact ((hlooks c x).2 hx).has

end

/-! ### Closing a single core with the placeholder -/

/-- The closure of a single core whose only lookahead is the placeholder. -/
def Probes (g : Augmented) (k : Core) : Core → Symbol → Prop :=
  g.Closes (fun c => c = k) fun c x => c = k ∧ x = Symbol.placeholder

/-- A core whose closure brings the placeholder to another core hands on to it any lookahead that it has in a
relation that is closed under expansion. -/
lemma Probes.of_placeholder {R : Core → Symbol → Prop}
    (hR : ∀ {c : Core} {n : Nat} {rest : Body} {x y : Symbol}, R c y → g.Opens c n rest →
      Leads g.productions g.kinds rest y x → R ⟨n, 0⟩ x)
    (wf : g.WellFormed) {k c : Core} (h : g.Probes k c Symbol.placeholder) {y : Symbol} (hy : R k y) :
    R c y := by
  generalize hx : Symbol.placeholder = x at h
  induction h with
  | seed h => exact h.1 ▸ hy
  | begin _ _ hstarts => exact absurd hx.symm (wf.ne_placeholder hstarts.isTerminal)
  | expand _ ho hleads ih =>
    rcases hleads with hstarts | ⟨hnull, rfl⟩
    · exact absurd hx.symm (wf.ne_placeholder hstarts.isTerminal)
    · exact hR (ih hx) ho (leads_self hnull y)

/-- What else the closure brings to a core is there in every relation that is closed under expansion and
in which the first core has some lookahead. -/
lemma Probes.of_ne_placeholder {R : Core → Symbol → Prop}
    (hR : ∀ {c : Core} {n : Nat} {rest : Body} {x y : Symbol}, R c y → g.Opens c n rest →
      Leads g.productions g.kinds rest y x → R ⟨n, 0⟩ x)
    (wf : g.WellFormed) {k c : Core} {x : Symbol} (h : g.Probes k c x) (hx : x ≠ Symbol.placeholder)
    {y : Symbol} (hy : R k y) : R c x := by
  induction h with
  | seed h => exact absurd h.2 hx
  | begin h ho hstarts => exact hR (h ▸ hy) ho (Or.inl hstarts)
  | @expand d n rest x z hd ho hleads ih =>
    by_cases hz : z = Symbol.placeholder
    · subst hz
      have hdy : R d y := Probes.of_placeholder hR wf hd hy
      rcases hleads with hstarts | ⟨-, rfl⟩
      · exact hR hdy ho (Or.inl hstarts)
      · exact absurd rfl hx
    · exact hR (ih hz) ho hleads

/-- A lookahead in a closure arises in the closure of one of the cores, or is a lookahead of a core whose
closure brings the placeholder there. -/
lemma Closes.exists_probes (wf : g.WellFormed) {K : Core → Prop} {L : Core → Symbol → Prop}
    (hL : ∀ c x, L c x → K c) {c : Core} {x : Symbol} (h : g.Closes K L c x) :
    ∃ k, K k ∧ (g.Probes k c x ∧ x ≠ Symbol.placeholder ∨ g.Probes k c Symbol.placeholder ∧ L k x) := by
  induction h with
  | @seed c x h => exact ⟨c, hL c x h, Or.inr ⟨.seed ⟨rfl, rfl⟩, h⟩⟩
  | @begin c n rest x h ho hx =>
    exact ⟨c, h, Or.inl ⟨.begin rfl ho hx, wf.ne_placeholder hx.isTerminal⟩⟩
  | @expand c n rest x y _ ho hx ih =>
    obtain ⟨k, hk, hprobe⟩ := ih
    refine ⟨k, hk, ?_⟩
    rcases hx with hx | ⟨hnull, rfl⟩
    · refine Or.inl ⟨?_, wf.ne_placeholder hx.isTerminal⟩
      rcases hprobe with ⟨hprobe, -⟩ | ⟨hprobe, -⟩
      · exact .expand hprobe ho (Or.inl hx)
      · exact .expand hprobe ho (Or.inl hx)
    · rcases hprobe with ⟨hprobe, hne⟩ | ⟨hprobe, hl⟩
      · exact Or.inl ⟨.expand hprobe ho (leads_self hnull x), hne⟩
      · exact Or.inr ⟨.expand hprobe ho (leads_self hnull _), hl⟩

/-- What the closure brings, apart from the placeholder, is a terminal. -/
lemma Probes.isTerminal {k c : Core} {x : Symbol} (h : g.Probes k c x) (hx : x ≠ Symbol.placeholder) :
    g.kinds.IsTerminal x := by
  induction h with
  | seed h => exact absurd h.2 hx
  | begin _ _ hstarts => exact hstarts.isTerminal
  | expand _ _ hleads ih =>
    rcases hleads with hstarts | ⟨-, rfl⟩
    · exact hstarts.isTerminal
    · exact ih hx

/-- The closure of a single core reaches what the core reaches. -/
lemma Probes.reaches {k c : Core} {x : Symbol} (h : g.Probes k c x) : g.Reaches (fun d => d = k) c :=
  Closes.reaches (fun _ _ hl => hl.1) h

end Augmented

end Lalr
