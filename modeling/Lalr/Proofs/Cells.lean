import Lalr.Proofs.Lookahead
import Lalr.Table.Construction

/-!
# The cells of a table

What a cell may hold is decided by its *candidates*: the shift along a transition, accepting by the augmenting
rule at the end of input, and the reduction of each complete core that has the symbol of the cell among its
lookaheads (`Automaton.Candidate`).

The items of a state are taken one after the other.  What they have made of a cell depends only on the
transition and on the rules of the items so far, and `Resolution.Settles` says how.  From this the table is
described cell by cell (`Table.Fits`), and every construction of a well-formed grammar succeeds
(`Augmented.exists_construct_eq_ok`).  Without conflicts each candidate is the action of its cell
(`Table.Fits.action?_of_candidate`).
-/

namespace Lalr

/-- The dot stands at the end of the body of rule `r`. -/
def Augmented.Completes (g : Augmented) (c : Core) (r : Rule) : Prop :=
  g.rules[c.rule]? = some r ∧ c.dot = r.rhs.length

/-- What a state may do on a terminal. -/
inductive Automaton.Candidate (g : Augmented) (a : Automaton) (n : Nat) (t : Symbol) : Action → Prop
  /-- Shift along the transition. -/
  | shift {m : Nat} (h : a.goto? n t = some m) : Candidate g a n t (.shift m)
  /-- Accept, by the complete augmenting rule at the end of input. -/
  | accept {c : Core} {r : Rule} (hc : g.Completes c r) (hrule : c.rule = 0)
      (h : LooksAt a.states n c t) (ht : t = Symbol.eof) : Candidate g a n t .accept
  /-- Reduce by the rule of a complete core. -/
  | reduce {c : Core} {r : Rule} (hc : g.Completes c r) (hrule : c.rule ≠ 0)
      (h : LooksAt a.states n c t) : Candidate g a n t (.reduce c.rule)

/-! ### Taking items one after the other -/

namespace Resolution

/-- What a cell of a terminal holds, given the target of the transition, whether the terminal is the end of
input, and the rules of the complete items that look at it. -/
def Settles (target : Option Nat) (atEnd : Prop) (rules : List Nat) : Option Action → Prop
  | none => target = none ∧ ∀ k ∈ rules, k = 0 ∧ ¬ atEnd
  | some (.shift m) => target = some m ∧ (atEnd → 0 ∉ rules)
  | some .accept => atEnd ∧ 0 ∈ rules
  | some (.reduce k) =>
    target = none ∧ (atEnd → 0 ∉ rules) ∧ k ≠ 0 ∧ k ∈ rules ∧ ∀ l ∈ rules, l = 0 ∨ l = k
  | some (.reduceMulti set) =>
    target = none ∧ (atEnd → 0 ∉ rules) ∧ (∀ k, k ∈ set ↔ k ≠ 0 ∧ k ∈ rules) ∧
      ∃ k ∈ rules, ∃ l ∈ rules, k ≠ l ∧ k ≠ 0 ∧ l ≠ 0
  | some (.goto _) => False

/-- Membership in a set of two rules. -/
lemma mem_pair {k l n : Nat} : n ∈ ({k, l} : RuleSet) ↔ n = k ∨ n = l := by
  change n ∈ Std.ExtTreeSet.insert {l} k ↔ _
  rw [Std.ExtTreeSet.mem_insert]
  change compare k n = .eq ∨ n ∈ Std.ExtTreeSet.insert ∅ l ↔ _
  rw [Std.ExtTreeSet.mem_insert]
  simp [eq_comm (a := n)]

/-- Before any item is taken there is only the transition. -/
lemma settles_nil (target : Option Nat) (atEnd : Prop) :
    Settles target atEnd [] (target.map Action.shift) := by
  cases target <;> simp [Settles]

/-- Taking account of a reduction. -/
lemma Settles.reduce {target : Option Nat} {atEnd : Prop} {rules : List Nat} {r : Resolution} {n : Nat}
    (h : Settles target atEnd rules r.action) (hn : n ≠ 0) (cell : Cell) (rule : Rule) :
    ∃ r', r.reduce cell rule n = .ok r' ∧ Settles target atEnd (rules ++ [n]) r'.action := by
  have hzero : 0 ∉ rules → 0 ∉ rules ++ [n] := by simp [hn.symm]
  obtain ⟨action, notices, merges⟩ := r
  unfold Resolution.reduce
  cases action with
  | none =>
    obtain ⟨htarget, hall⟩ := h
    refine ⟨_, rfl, htarget, fun hend => hzero fun hmem => (hall 0 hmem).2 hend, hn, by simp, ?_⟩
    intro l hl
    rcases List.mem_append.1 hl with hl | hl
    · exact Or.inl (hall l hl).1
    · exact Or.inr (List.mem_singleton.1 hl)
  | some action =>
    cases action with
    | shift m => exact ⟨_, rfl, h.1, fun hend => hzero (h.2 hend)⟩
    | accept => exact ⟨_, rfl, h.1, List.mem_append_left _ h.2⟩
    | reduce k =>
      obtain ⟨htarget, hend, hk, hmem, hall⟩ := h
      by_cases hkn : k = n
      · subst hkn
        refine ⟨⟨some (.reduce k), notices, merges⟩, by simp [Action.addReduction?, Action.isAmbiguous],
          htarget, fun he => hzero (hend he), hk, by simp, ?_⟩
        intro l hl
        rcases List.mem_append.1 hl with hl | hl
        · exact hall l hl
        · exact Or.inr (List.mem_singleton.1 hl)
      · refine ⟨⟨some (.reduceMulti {k, n}), notices, merges + 1⟩,
          by simp [Action.addReduction?, Action.isAmbiguous, hkn],
          htarget, fun he => hzero (hend he), fun l => ?_, k, by simp [hmem], n, by simp, hkn, hk, hn⟩
        rw [mem_pair, List.mem_append, List.mem_singleton]
        constructor
        · rintro (rfl | rfl)
          · exact ⟨hk, Or.inl hmem⟩
          · exact ⟨hn, Or.inr rfl⟩
        · rintro ⟨hl, hmem' | rfl⟩
          · exact Or.inl ((hall l hmem').resolve_left hl)
          · exact Or.inr rfl
    | reduceMulti set =>
      obtain ⟨htarget, hend, hset, k, hkmem, l, hlmem, hkl⟩ := h
      refine ⟨⟨some (.reduceMulti (set.insert n)), notices, merges + 1⟩,
        by simp [Action.addReduction?, Action.isAmbiguous],
        htarget, fun he => hzero (hend he), fun j => ?_,
        k, List.mem_append_left _ hkmem, l, List.mem_append_left _ hlmem, hkl⟩
      rw [Std.ExtTreeSet.mem_insert, hset, List.mem_append, List.mem_singleton, Std.compare_eq_iff_eq]
      constructor
      · rintro (rfl | ⟨hj, hmem⟩)
        · exact ⟨hn, Or.inr rfl⟩
        · exact ⟨hj, Or.inl hmem⟩
      · rintro ⟨hj, hmem | rfl⟩
        · exact Or.inr ⟨hj, hmem⟩
        · exact Or.inl rfl
    | goto m => exact h.elim

/-- Away from the end of input the augmenting rule has no say. -/
lemma Settles.augmenting {target : Option Nat} {atEnd : Prop} {rules : List Nat} {action : Option Action}
    (h : Settles target atEnd rules action) (hend : ¬ atEnd) :
    Settles target atEnd (rules ++ [0]) action := by
  cases action with
  | none => exact ⟨h.1, List.forall_mem_append.2 ⟨h.2, by simpa using hend⟩⟩
  | some action =>
    cases action with
    | shift m => exact ⟨h.1, fun he => absurd he hend⟩
    | accept => exact absurd h.1 hend
    | reduce k =>
      obtain ⟨htarget, -, hk, hmem, hall⟩ := h
      exact ⟨htarget, fun he => absurd he hend, hk, List.mem_append_left _ hmem,
        List.forall_mem_append.2 ⟨hall, by simp⟩⟩
    | reduceMulti set =>
      obtain ⟨htarget, -, hset, k, hkmem, l, hlmem, hkl⟩ := h
      refine ⟨htarget, fun he => absurd he hend, fun j => ?_, k, List.mem_append_left _ hkmem,
        l, List.mem_append_left _ hlmem, hkl⟩
      rw [hset, List.mem_append, List.mem_singleton]
      exact and_congr_right fun hj => ⟨Or.inl, fun hmem => hmem.resolve_right hj⟩
    | goto m => exact h.elim

/-- Taking account of a complete item. -/
lemma Settles.consider {g : Augmented} {cell : Cell} {target : Option Nat} {rules : List Nat}
    {r : Resolution} {i : Item} (h : Settles target (cell.symbol = Symbol.eof) rules r.action)
    (hi : g.Valid i.core) :
    ∃ r', Resolution.consider g cell r i = .ok r' ∧
      Settles target (cell.symbol = Symbol.eof) (rules ++ [i.core.rule]) r'.action := by
  unfold Resolution.consider
  by_cases hrule : i.core.rule = Augmented.augmentingRule
  · rw [if_pos hrule, hrule]
    by_cases hend : cell.symbol = Symbol.eof
    · rw [if_pos hend]
      exact ⟨_, rfl, hend, by simp [Augmented.augmentingRule]⟩
    · rw [if_neg hend]
      exact ⟨r, rfl, h.augmenting hend⟩
  · rw [if_neg hrule]
    obtain ⟨rule, hr, -⟩ := hi
    obtain ⟨r', hr', h'⟩ := h.reduce hrule cell rule
    refine ⟨r', ?_, h'⟩
    simp [Core.rule?, hr, bind, Except.bind, hr']

/-- Taking account of several complete items. -/
lemma Settles.foldlM {g : Augmented} (cell : Cell) {target : Option Nat} {rules : List Nat}
    {r : Resolution} {items : List Item}
    (h : Settles target (cell.symbol = Symbol.eof) rules r.action) (hitems : ∀ i ∈ items, g.Valid i.core) :
    ∃ r', items.foldlM (Resolution.consider g cell) r = .ok r' ∧
      Settles target (cell.symbol = Symbol.eof) (rules ++ items.map fun i => i.core.rule) r'.action := by
  induction items generalizing rules r with
  | nil => exact ⟨r, rfl, by simpa using h⟩
  | cons i items ih =>
    obtain ⟨r₁, hr₁, h₁⟩ := h.consider (hitems i List.mem_cons_self)
    obtain ⟨r₂, hr₂, h₂⟩ := ih h₁ fun j hj => hitems j (List.mem_cons_of_mem i hj)
    refine ⟨r₂, ?_, by simpa using h₂⟩
    rw [List.foldlM_cons, hr₁]
    exact hr₂

end Resolution

/-! ### The cells of one state -/

namespace Automaton

variable {g : Augmented} {a : Automaton}

/-- The rule of a complete core of the state looks at the symbol. -/
def Reducible (g : Augmented) (a : Automaton) (n : Nat) (t : Symbol) (k : Nat) : Prop :=
  ∃ c r, c.rule = k ∧ g.Completes c r ∧ LooksAt a.states n c t

/-- The complete items among items with valid cores are found, in the order of the items. -/
lemma completeItems_eq_ok {s : ItemSet} (hs : ∀ c, s.Has c → g.Valid c) :
    g.completeItems s =
      .ok (s.items.filter fun i => g.rules[i.core.rule]?.any fun r => i.core.dot == r.rhs.length) := by
  set complete : Item → Bool := fun i => g.rules[i.core.rule]?.any fun r => i.core.dot == r.rhs.length
  have hmap : s.items.mapM (fun i => do
      let isComplete ← i.core.isComplete g.rules
      Except.ok (if isComplete then some i else none)) = .ok (s.items.map (Option.guard fun i => complete i)) := by
    rw [mapM_eq_ok, List.forall₂_map_right_iff, List.forall₂_same]
    intro i hi
    obtain ⟨r, hr, hdot⟩ := hs i.core ⟨i, hi, rfl⟩
    have hle : decide (r.rhs.length ≤ i.core.dot) = complete i := by
      rw [Bool.eq_iff_iff, decide_eq_true_iff]
      simp only [complete, hr, Option.any_some, beq_iff_eq]
      omega
    simp [Core.isComplete, Core.rule?, hr, bind, Except.bind, hle, Option.guard]
  unfold Augmented.completeItems
  rw [hmap, ← List.filterMap_eq_filter]
  simp [bind, Except.bind, List.filterMap_map]

/-- The complete items are those of the complete cores. -/
lemma exists_completeItems_eq_ok {s : ItemSet} (hs : ∀ c, s.Has c → g.Valid c) :
    ∃ items, g.completeItems s = .ok items ∧ ∀ i, i ∈ items ↔ i ∈ s.items ∧ ∃ r, g.Completes i.core r := by
  refine ⟨_, completeItems_eq_ok hs, fun i => ?_⟩
  rw [List.mem_filter, Option.any_eq_true]
  simp only [beq_iff_eq, Augmented.Completes]

/-- What the table has in a cell of a state, given what the cell holds. -/
def Holds (g : Augmented) (a : Automaton) (n : Nat) (x : Symbol) (action : Option Action) : Prop :=
  (g.kinds.IsNonterminal x → action = (a.goto? n x).map Action.goto) ∧
    (g.kinds.IsTerminal x → ∃ rules, (∀ k, k ∈ rules ↔ a.Reducible g n x k) ∧
      Resolution.Settles (a.goto? n x) (x = Symbol.eof) rules action)

/-- Every cell of a state is resolved. -/
lemma Closed.exists_resolve_eq_ok (h : a.Closed g) {n : Nat} {s : ItemSet}
    (hs : a.states[n]? = some s) {complete : List Item}
    (hcomplete : ∀ i, i ∈ complete ↔ i ∈ s.items ∧ ∃ r, g.Completes i.core r) {x : Symbol} {kind : Kind}
    (hkind : g.kinds[x]? = some kind) :
    ∃ r, g.resolve a complete ⟨n, x⟩ kind = .ok r ∧ a.Holds g n x r.action := by
  cases kind with
  | nonterminal =>
    refine ⟨_, rfl, fun _ => rfl, fun hterminal => ?_⟩
    exact absurd hterminal (Augmented.not_isTerminal hkind)
  | terminal =>
    set items := complete.filter fun i => i.lookaheads.contains x with hitems
    have hvalid : ∀ i ∈ items, g.Valid i.core := fun i hi => by
      obtain ⟨hi, -⟩ := (hcomplete i).1 (List.mem_filter.1 hi).1
      exact (h.reaches ⟨s, hs, i, hi, rfl⟩).valid fun _ hc => h.explored.valid hc
    obtain ⟨r, hr, hsettles⟩ := (Resolution.settles_nil (a.goto? n x) (x = Symbol.eof)).foldlM
      ⟨n, x⟩ (r := { action := (a.goto? n x).map Action.shift }) hvalid
    refine ⟨r, hr, fun hnonterminal => ?_, fun _ => ⟨_, fun k => ?_, hsettles⟩⟩
    · exact absurd hkind (Augmented.not_isTerminal hnonterminal)
    · rw [List.nil_append, List.mem_map]
      constructor
      · rintro ⟨i, hi, rfl⟩
        obtain ⟨hi, hx⟩ := List.mem_filter.1 hi
        obtain ⟨hi, rule, hrule⟩ := (hcomplete i).1 hi
        exact ⟨i.core, rule, rfl, hrule, s, hs, i, hi, rfl, hx⟩
      · rintro ⟨c, rule, rfl, hrule, s', hs', i, hi, rfl, hx⟩
        obtain rfl := Option.some.inj (hs.symm.trans hs')
        exact ⟨i, List.mem_filter.2 ⟨(hcomplete i).2 ⟨hi, rule, hrule⟩, hx⟩, rfl⟩

/-- The complete items of a state are found. -/
lemma Closed.exists_completeItems_eq_ok (h : a.Closed g) {n : Nat} {s : ItemSet}
    (hs : a.states[n]? = some s) :
    ∃ items, g.completeItems s = .ok items ∧ ∀ i, i ∈ items ↔ i ∈ s.items ∧ ∃ r, g.Completes i.core r :=
  Automaton.exists_completeItems_eq_ok fun _ hc =>
    (h.reaches ⟨s, hs, hc⟩).valid fun _ hk => h.explored.valid hk

/-- The cells of a state are resolved. -/
lemma Closed.exists_resolveState_eq_ok (h : a.Closed g) {n : Nat} {s : ItemSet}
    (hs : a.states[n]? = some s) :
    ∃ cells, g.resolveState a n s = .ok cells ∧
      ∀ cell r, (cell, r) ∈ cells ↔ cell.state = n ∧ ∃ items kind, g.completeItems s = .ok items ∧
        g.kinds[cell.symbol]? = some kind ∧ g.resolve a items cell kind = .ok r := by
  obtain ⟨items, hitems, hiff⟩ := h.exists_completeItems_eq_ok hs
  set step : Symbol × Kind → Except Fault (Cell × Resolution) := fun p => do
    let r ← g.resolve a items ⟨n, p.1⟩ p.2
    Except.ok (⟨n, p.1⟩, r) with hstep
  obtain ⟨cells, hcells⟩ : ∃ cells, g.kinds.toList.mapM step = .ok cells :=
    exists_mapM_eq_ok fun p hp => by
      obtain ⟨r, hr, -⟩ := h.exists_resolve_eq_ok hs hiff
        (Std.ExtTreeMap.mem_toList_iff_getElem?_eq_some.1 hp)
      exact ⟨(⟨n, p.1⟩, r), by simp only [hstep, hr]; rfl⟩
  refine ⟨cells, by rw [Augmented.resolveState, hitems]; exact hcells, fun cell r => ?_⟩
  rw [mem_of_mapM_eq_ok hcells]
  constructor
  · rintro ⟨⟨x, kind⟩, hp, hr⟩
    obtain ⟨r', hr', hr⟩ := bind_eq_ok.1 hr
    obtain ⟨rfl, rfl⟩ := Prod.mk.inj (Except.ok.inj hr)
    exact ⟨rfl, items, kind, hitems, Std.ExtTreeMap.mem_toList_iff_getElem?_eq_some.1 hp, hr'⟩
  · rintro ⟨rfl, items', kind, hitems', hkind, hr⟩
    obtain rfl := Except.ok.inj (hitems.symm.trans hitems')
    refine ⟨(cell.symbol, kind), Std.ExtTreeMap.mem_toList_iff_getElem?_eq_some.2 hkind, ?_⟩
    simp only [hstep, hr]
    rfl

/-- The cells of all states are resolved. -/
lemma Closed.exists_resolveAll_eq_ok_and (h : a.Closed g) :
    ∃ resolved, g.resolveAll a = .ok resolved ∧ ∀ cell r, (cell, r) ∈ resolved ↔
      ∃ s, a.states[cell.state]? = some s ∧ ∃ items kind, g.completeItems s = .ok items ∧
        g.kinds[cell.symbol]? = some kind ∧ g.resolve a items cell kind = .ok r := by
  have hstate {s : ItemSet} {n : Nat} : (s, n) ∈ a.states.toList.zipIdx ↔ a.states[n]? = some s := by
    rw [List.mk_mem_zipIdx_iff_getElem?, Array.getElem?_toList]
  obtain ⟨cellss, hcellss, hof, hto⟩ := exists_mapM_eq_ok_and
    (f := fun p : ItemSet × Nat => g.resolveState a p.2 p.1) fun _ hp =>
      h.exists_resolveState_eq_ok (hstate.1 hp)
  refine ⟨cellss.flatten, by rw [Augmented.resolveAll, hcellss]; rfl, fun cell r => ?_⟩
  rw [List.mem_flatten]
  constructor
  · rintro ⟨cells, hcells, hr⟩
    obtain ⟨⟨s, n⟩, hs, hiff⟩ := hof cells hcells
    obtain ⟨rfl, hr⟩ := (hiff cell r).1 hr
    exact ⟨s, hstate.1 hs, hr⟩
  · rintro ⟨s, hs, hr⟩
    obtain ⟨cells, hcells, hiff⟩ := hto (s, cell.state) (hstate.2 hs)
    exact ⟨cells, hcells, (hiff cell r).2 ⟨rfl, hr⟩⟩

/-- All the cells of a closed automaton are resolved, each in one way. -/
lemma Closed.exists_resolveAll_eq_ok (h : a.Closed g) :
    ∃ resolved, g.resolveAll a = .ok resolved ∧
      (∀ cell r, (cell, r) ∈ resolved → cell.state < a.states.size ∧ cell.symbol ∈ g.kinds ∧
        a.Holds g cell.state cell.symbol r.action) ∧
      (∀ cell r r', (cell, r) ∈ resolved → (cell, r') ∈ resolved → r = r') ∧
      ∀ cell, cell.state < a.states.size → cell.symbol ∈ g.kinds → ∃ r, (cell, r) ∈ resolved := by
  obtain ⟨resolved, hresolved, hmem⟩ := h.exists_resolveAll_eq_ok_and
  refine ⟨resolved, hresolved, ?_, ?_, ?_⟩
  · intro cell r hr
    obtain ⟨s, hs, items, kind, hitems, hkind, hr⟩ := (hmem cell r).1 hr
    obtain ⟨items', hitems', hiff⟩ := h.exists_completeItems_eq_ok hs
    obtain rfl := Except.ok.inj (hitems.symm.trans hitems')
    obtain ⟨r', hr', hholds⟩ := h.exists_resolve_eq_ok hs hiff hkind
    obtain rfl := Except.ok.inj (hr.symm.trans hr')
    exact ⟨(Array.getElem?_eq_some_iff.1 hs).1, Kinds.mem_iff_exists.2 ⟨kind, hkind⟩, hholds⟩
  · intro cell r r' hr hr'
    obtain ⟨s, hs, items, kind, hitems, hkind, hr⟩ := (hmem cell r).1 hr
    obtain ⟨s', hs', items', kind', hitems', hkind', hr'⟩ := (hmem cell r').1 hr'
    obtain rfl := Option.some.inj (hs.symm.trans hs')
    obtain rfl := Except.ok.inj (hitems.symm.trans hitems')
    obtain rfl := Option.some.inj (hkind.symm.trans hkind')
    exact Except.ok.inj (hr.symm.trans hr')
  · intro cell hlt hx
    have hs := Array.getElem?_eq_getElem hlt
    obtain ⟨kind, hkind⟩ := Kinds.mem_iff_exists.1 hx
    obtain ⟨items, hitems, hiff⟩ := h.exists_completeItems_eq_ok hs
    obtain ⟨r, hr, -⟩ := h.exists_resolve_eq_ok hs hiff hkind
    exact ⟨r, (hmem cell r).2 ⟨_, hs, items, kind, hitems, hkind, hr⟩⟩

end Automaton

/-! ### The table -/

/-- Tables with the same start, the same actions and the same rules are the same. -/
lemma Table.eq_of_action? {t u : Table} (hstart : t.start = u.start) (haction : ∀ n x, t.action? n x = u.action? n x)
    (hrules : t.rules = u.rules) : t = u := by
  have hcells : t.cells = u.cells := Std.ExtTreeMap.ext_getElem? fun cell => haction cell.state cell.symbol
  cases t
  cases u
  simp_all

/-- The table of a closed automaton: it starts in the first state, lists the rules of the grammar, and its
cells are what the candidates make of them. -/
structure Table.Fits (g : Augmented) (a : Automaton) (t : Table) : Prop where
  start : t.start = 0
  rules : t.rules = g.rules
  holds : ∀ {n : Nat} {x : Symbol}, n < a.states.size → x ∈ g.kinds → a.Holds g n x (t.action? n x)
  lt_of_isSome : ∀ {n : Nat} {x : Symbol} {action : Action}, t.action? n x = some action →
    n < a.states.size ∧ x ∈ g.kinds

/-- What a map of a list of entries has at a key is in the list. -/
lemma mem_of_getElem?_ofList {α β : Type} [BEq α] [LawfulBEq α] [Ord α] [Std.TransOrd α] [Std.LawfulEqOrd α]
    {l : List (α × β)} {key : α} {value : β} (h : (Std.ExtTreeMap.ofList l)[key]? = some value) :
    (key, value) ∈ l := by
  rw [Std.ExtTreeMap.ofList_eq_insertMany_empty, Std.ExtTreeMap.getElem?_insertMany_list,
    List.findSomeRev?_eq_findSome?_reverse] at h
  simp only [Std.ExtTreeMap.getElem?_empty, Option.or_none] at h
  obtain ⟨⟨key', value'⟩, hmem, heq⟩ := List.exists_of_findSome?_eq_some h
  by_cases hkey : compare key' key = .eq
  · obtain rfl := Std.LawfulEqOrd.eq_of_compare hkey
    rw [if_pos hkey] at heq
    obtain rfl := Option.some.inj heq
    exact List.mem_reverse.1 hmem
  · rw [if_neg hkey] at heq
    cases heq

/-- An action of the table of resolved cells is that of one of them. -/
lemma Augmented.exists_of_action?_tableOf {g : Augmented} {resolved : List (Cell × Resolution)} {n : Nat}
    {x : Symbol} {action : Action} (h : (g.tableOf resolved).action? n x = some action) :
    ∃ r, ((⟨n, x⟩ : Cell), r) ∈ resolved ∧ r.action = some action := by
  unfold Table.action? tableOf Table.ofList at h
  obtain ⟨⟨cell, r⟩, hr, heq⟩ := List.mem_filterMap.1 (mem_of_getElem?_ofList h)
  obtain ⟨action', haction, heq⟩ := Option.map_eq_some_iff.1 heq
  obtain ⟨rfl, rfl⟩ := Prod.mk.inj heq
  exact ⟨r, hr, haction⟩

/-- The table of resolved cells fits. -/
lemma Augmented.fits_tableOf {g : Augmented} {a : Automaton} {resolved : List (Cell × Resolution)}
    (hholds : ∀ cell r, (cell, r) ∈ resolved → cell.state < a.states.size ∧ cell.symbol ∈ g.kinds ∧
      a.Holds g cell.state cell.symbol r.action)
    (hunique : ∀ cell r r', (cell, r) ∈ resolved → (cell, r') ∈ resolved → r = r')
    (hexists : ∀ cell, cell.state < a.states.size → cell.symbol ∈ g.kinds → ∃ r, (cell, r) ∈ resolved) :
    (g.tableOf resolved).Fits g a := by
  have haction {n : Nat} {x : Symbol} {r : Resolution} (hr : (⟨n, x⟩, r) ∈ resolved) :
      (g.tableOf resolved).action? n x = r.action := by
    unfold Table.action? tableOf Table.ofList
    set actions := resolved.filterMap fun entry => entry.2.action.map fun action => (entry.1, action)
    have hof {action : Action} (h : (⟨n, x⟩, action) ∈ actions) : r.action = some action := by
      obtain ⟨⟨cell, r'⟩, hr', heq⟩ := List.mem_filterMap.1 h
      obtain ⟨action', haction', heq⟩ := Option.map_eq_some_iff.1 heq
      obtain ⟨rfl, rfl⟩ := Prod.mk.inj heq
      rw [hunique _ r r' hr hr', haction']
    cases hget : (Std.ExtTreeMap.ofList actions)[(⟨n, x⟩ : Cell)]? with
    | some action => exact (hof (mem_of_getElem?_ofList hget)).symm
    | none =>
      by_contra hne
      obtain ⟨action, haction⟩ := Option.ne_none_iff_exists'.1 fun h => hne h.symm
      have hmem : (⟨n, x⟩, action) ∈ actions :=
        List.mem_filterMap.2 ⟨(⟨n, x⟩, r), hr, by simp [haction]⟩
      have hcontains : (⟨n, x⟩ : Cell) ∈ Std.ExtTreeMap.ofList actions := by
        rw [Std.ExtTreeMap.mem_ofList, List.contains_iff_mem]
        exact List.mem_map.2 ⟨_, hmem, rfl⟩
      rw [Std.ExtTreeMap.mem_iff_isSome_getElem?, hget] at hcontains
      cases hcontains
  refine ⟨rfl, rfl, fun {n x} hn hx => ?_, fun {n x action} h => ?_⟩
  · obtain ⟨r, hr⟩ := hexists ⟨n, x⟩ hn hx
    rw [haction hr]
    exact (hholds _ r hr).2.2
  · obtain ⟨r, hr, -⟩ := exists_of_action?_tableOf h
    obtain ⟨hn, hx, -⟩ := hholds _ r hr
    exact ⟨hn, hx⟩

/-- The table of a well-formed grammar is constructed. -/
theorem Augmented.exists_construct_eq_ok {g : Augmented} (wf : g.WellFormed) (verbose : Bool) :
    ∃ c, g.construct verbose = .ok c ∧ c.grammar = g ∧ c.automaton.Closed g ∧
      c.table.Fits g c.automaton := by
  obtain ⟨bare, ts, m, passes, a, hbare, hts, hm, ha, hclosed⟩ := Automaton.exists_closed_eq_ok wf
  obtain ⟨resolved, hresolved, hholds, hunique, hexists⟩ := hclosed.exists_resolveAll_eq_ok
  have hfits := fits_tableOf hholds hunique hexists
  unfold construct
  simp only [bind, Except.bind, hbare, hts, hm, ha, hresolved]
  exact ⟨_, rfl, rfl, hclosed, hfits⟩

/-- A grammar that passes its checks gives a construction with a closed automaton and a table that fits. -/
theorem Grammar.exists_construct_eq_ok {grammar : Grammar} {g : Augmented} (hg : grammar.augment = .ok g)
    (verbose : Bool) :
    ∃ c, grammar.construct verbose = .ok c ∧ c.grammar = g ∧ c.automaton.Closed g ∧
      c.table.Fits g c.automaton := by
  obtain ⟨c, hc, hgrammar, hclosed, hfits⟩ :=
    Augmented.exists_construct_eq_ok (wellFormed_of_augment hg) verbose
  unfold Grammar.construct
  simp only [hg, hc, bind, Except.bind, Except.mapError]
  exact ⟨_, rfl, hgrammar, hclosed, hfits⟩

/-! ### What the actions of a table come from -/

/-- The rule is one by which the action reduces. -/
def Action.ReducesBy (k : Nat) : Action → Prop
  | .reduce n => n = k
  | .reduceMulti rules => k ∈ rules
  | _ => False

namespace Table.Fits

variable {g : Augmented} {a : Automaton} {t : Table} (h : t.Fits g a)
include h

/-- There is no action outside the automaton or for a symbol without a kind. -/
lemma action?_eq_none {n : Nat} {x : Symbol} (hcell : ¬ (n < a.states.size ∧ x ∈ g.kinds)) :
    t.action? n x = none := by
  by_contra hne
  obtain ⟨action, haction⟩ := Option.ne_none_iff_exists'.1 hne
  exact hcell (h.lt_of_isSome haction)

/-- A goto goes along a transition on a nonterminal, and each of these has one. -/
lemma action?_of_isNonterminal {n : Nat} {A : Symbol} (ha : a.Explored g) (hA : g.kinds.IsNonterminal A) :
    t.action? n A = (a.goto? n A).map Action.goto := by
  have hmem : A ∈ g.kinds := Kinds.mem_iff_exists.2 ⟨.nonterminal, hA⟩
  by_cases hn : n < a.states.size
  · exact (h.holds hn hmem).1 hA
  · rw [ha.goto?_eq_none hn, h.action?_eq_none fun hcell => hn hcell.1, Option.map_none]

/-- The action of a cell is a goto on a nonterminal, or is settled by the complete items that look at a
terminal. -/
lemma action?_cases {n : Nat} {x : Symbol} {action : Action} (haction : t.action? n x = some action) :
    g.kinds.IsNonterminal x ∧ (∃ m, a.goto? n x = some m ∧ action = .goto m) ∨
      g.kinds.IsTerminal x ∧ ∃ rules, (∀ k, k ∈ rules ↔ a.Reducible g n x k) ∧
        Resolution.Settles (a.goto? n x) (x = Symbol.eof) rules (some action) := by
  obtain ⟨hn, hx⟩ := h.lt_of_isSome haction
  obtain ⟨hnonterminal, hterminal⟩ := h.holds hn hx
  rw [haction] at hnonterminal hterminal
  rcases Augmented.isTerminal_or_isNonterminal hx with hx | hx
  · exact Or.inr ⟨hx, hterminal hx⟩
  · obtain ⟨m, hm, heq⟩ := Option.map_eq_some_iff.1 (hnonterminal hx).symm
    exact Or.inl ⟨hx, m, hm, heq.symm⟩

/-- A shift goes along a transition on a terminal. -/
lemma of_shift {n m : Nat} {x : Symbol} (haction : t.action? n x = some (.shift m)) :
    g.kinds.IsTerminal x ∧ a.goto? n x = some m := by
  rcases h.action?_cases haction with ⟨-, m', -, heq⟩ | ⟨hx, rules, -, hsettles⟩
  · cases heq
  · exact ⟨hx, hsettles.1⟩

/-- A reduction is by the rule of a complete core that looks at the terminal, and no transition is there. -/
lemma of_reduce {n k : Nat} {x : Symbol} (haction : t.action? n x = some (.reduce k)) :
    k ≠ 0 ∧ a.goto? n x = none ∧ a.Reducible g n x k := by
  rcases h.action?_cases haction with ⟨-, m', -, heq⟩ | ⟨-, rules, hrules, hsettles⟩
  · cases heq
  · obtain ⟨htarget, -, hk, hmem, -⟩ := hsettles
    exact ⟨hk, htarget, (hrules k).1 hmem⟩

/-- All rules by which an action reduces are those of complete cores that look at the terminal. -/
lemma of_reducesBy {n k : Nat} {x : Symbol} {action : Action} (haction : t.action? n x = some action)
    (hk : action.ReducesBy k) : k ≠ 0 ∧ a.Reducible g n x k := by
  rcases h.action?_cases haction with ⟨-, m, -, rfl⟩ | ⟨-, rules, hrules, hsettles⟩
  · exact hk.elim
  · cases action with
    | reduce n =>
      obtain rfl : n = k := hk
      obtain ⟨-, -, hne, hmem, -⟩ := hsettles
      exact ⟨hne, (hrules n).1 hmem⟩
    | reduceMulti set =>
      obtain ⟨hne, hmem⟩ := (hsettles.2.2.1 k).1 hk
      exact ⟨hne, (hrules k).1 hmem⟩
    | _ => exact hk.elim

/-- Accepting is by the complete augmenting rule at the end of input. -/
lemma of_accept {n : Nat} {x : Symbol} (haction : t.action? n x = some .accept) :
    x = Symbol.eof ∧ a.Reducible g n x 0 := by
  rcases h.action?_cases haction with ⟨-, m', -, heq⟩ | ⟨-, rules, hrules, hsettles⟩
  · cases heq
  · exact ⟨hsettles.1, (hrules 0).1 hsettles.2⟩

end Table.Fits

/-! ### Candidates -/

namespace Automaton

variable {g : Augmented} {a : Automaton}

/-- No two different candidates compete for a terminal in a state. -/
def ConflictFree (g : Augmented) (a : Automaton) : Prop :=
  ∀ ⦃n : Nat⦄ ⦃t : Symbol⦄ ⦃α β : Action⦄, g.kinds.IsTerminal t →
    a.Candidate g n t α → a.Candidate g n t β → α = β

/-- Whether the complete items of each state leave no room for a conflict: none of them looks at a symbol with
a transition, and no two of them with different rules look at the same symbol. -/
def isConflictFree (g : Augmented) (a : Automaton) : Bool :=
  a.states.toList.zipIdx.all fun (s, n) =>
    let complete := s.items.filter fun i => g.rules[i.core.rule]?.any fun r => r.rhs.length == i.core.dot
    complete.all fun i => i.lookaheads.toList.all fun x =>
      (a.goto? n x).isNone && complete.all fun j => !j.lookaheads.contains x || i.core.rule == j.core.rule

/-- What the test finds for a reducible rule. -/
lemma Reducible.of_isConflictFree (h : a.isConflictFree g = true) {n k : Nat} {t : Symbol}
    (hk : a.Reducible g n t k) :
    a.goto? n t = none ∧ ∀ l, a.Reducible g n t l → k = l := by
  obtain ⟨c, r, rfl, ⟨hr, hdot⟩, s, hs, i, hi, rfl, hlooks⟩ := hk
  have hstate := List.all_eq_true.1 h (s, n) (List.mk_mem_zipIdx_iff_getElem?.2 (by simpa using hs))
  simp only [List.all_eq_true, List.mem_filter, Bool.and_eq_true, and_imp] at hstate
  have hitem := hstate i hi (by simp [hr, hdot]) t (by simpa using hlooks)
  refine ⟨by simpa using hitem.1, ?_⟩
  rintro l ⟨c', r', rfl, ⟨hr', hdot'⟩, s', hs', j, hj, rfl, hlooks'⟩
  obtain rfl := Option.some.inj (hs.symm.trans hs')
  have hpair := hitem.2 j hj (by simp [hr', hdot'])
  simpa [Std.ExtTreeSet.contains_iff_mem.2 hlooks'] using hpair

/-- A candidate comes from a transition or from a reducible rule, and accepting is the reduction of the
augmenting rule. -/
lemma Candidate.cases {n : Nat} {t : Symbol} {α : Action} (h : a.Candidate g n t α) :
    (∃ m, a.goto? n t = some m ∧ α = .shift m) ∨
      ∃ k, a.Reducible g n t k ∧ α = if k = 0 then .accept else .reduce k := by
  cases h with
  | shift hm => exact Or.inl ⟨_, hm, rfl⟩
  | accept hc hrule hl _ => exact Or.inr ⟨0, ⟨_, _, hrule, hc, hl⟩, rfl⟩
  | reduce hc hrule hl => exact Or.inr ⟨_, ⟨_, _, rfl, hc, hl⟩, (if_neg hrule).symm⟩

/-- An automaton that passes the test has no conflicts. -/
lemma conflictFree_of_isConflictFree (h : a.isConflictFree g = true) : a.ConflictFree g := by
  have hshift {n m k : Nat} {t : Symbol} (hm : a.goto? n t = some m) : ¬ a.Reducible g n t k := by
    intro hk
    rw [(hk.of_isConflictFree h).1] at hm
    cases hm
  intro n t α β _ hα hβ
  rcases hα.cases with ⟨m, hm, rfl⟩ | ⟨k, hk, rfl⟩
  · rcases hβ.cases with ⟨m', hm', rfl⟩ | ⟨l, hl, rfl⟩
    · rw [Option.some.inj (hm.symm.trans hm')]
    · exact absurd hl (hshift hm)
  · rcases hβ.cases with ⟨m, hm, rfl⟩ | ⟨l, hl, rfl⟩
    · exact absurd hk (hshift hm)
    · rw [(hk.of_isConflictFree h).2 l hl]

/-- A reducible rule is a candidate. -/
lemma Reducible.candidate {n k : Nat} {t : Symbol} (h : a.Reducible g n t k) (hk : k ≠ 0) :
    a.Candidate g n t (.reduce k) := by
  obtain ⟨c, r, rfl, hc, hlooks⟩ := h
  exact .reduce hc hk hlooks

/-- The reducible augmenting rule is a candidate at the end of input. -/
lemma Reducible.candidate_accept {n : Nat} (h : a.Reducible g n Symbol.eof 0) :
    a.Candidate g n Symbol.eof .accept := by
  obtain ⟨c, r, hrule, hc, hlooks⟩ := h
  exact .accept hc hrule hlooks rfl

end Automaton

/-- A table is deterministic when no cell holds competing reductions. -/
lemma Table.checkDeterministic_eq_ok_iff {t : Table} :
    t.checkDeterministic = .ok () ↔ ∀ n x rules, t.action? n x ≠ some (.reduceMulti rules) := by
  have hnil : t.checkDeterministic = .ok () ↔ t.conflicts = [] := by
    unfold checkDeterministic GrammarError.check
    cases t.conflicts <;> simp
  rw [hnil, conflicts, List.filterMap_eq_nil_iff]
  constructor
  · intro hnone n x rules haction
    exact absurd (hnone _ (Std.ExtTreeMap.mem_toList_iff_getElem?_eq_some.2 haction)) (Option.some_ne_none _)
  · rintro hnone ⟨cell, action⟩ hmem
    have haction : t.action? cell.state cell.symbol = some action :=
      Std.ExtTreeMap.mem_toList_iff_getElem?_eq_some.1 hmem
    cases action with
    | reduceMulti rules => exact absurd haction (hnone cell.state cell.symbol rules)
    | _ => rfl

namespace Table.Fits

variable {g : Augmented} {a : Automaton} {t : Table} (h : t.Fits g a)
include h

/-- Without conflicts a candidate is the action of its cell. -/
lemma action?_of_candidate (ha : a.Explored g) (hfree : a.ConflictFree g) {n : Nat} {x : Symbol}
    {α : Action} (hx : g.kinds.IsTerminal x) (hα : a.Candidate g n x α) : t.action? n x = some α := by
  have hn : n < a.states.size := by
    cases hα with
    | shift hm => exact (ha.target hm).1
    | accept _ _ hl _ | reduce _ _ hl =>
      obtain ⟨s, hs, -⟩ := hl
      exact (Array.getElem?_eq_some_iff.1 hs).1
  obtain ⟨rules, hrules, hsettles⟩ := (h.holds hn (Augmented.mem_kinds_of_isTerminal hx)).2 hx
  have hreduce {k : Nat} (hk : k ∈ rules) (hne : k ≠ 0) : a.Candidate g n x (.reduce k) :=
    ((hrules k).1 hk).candidate hne
  cases haction : t.action? n x with
  | none =>
    rw [haction] at hsettles
    obtain ⟨htarget, hall⟩ := hsettles
    cases hα with
    | shift hm => exact absurd (htarget.symm.trans hm) nofun
    | @accept c r hc hrule hl hend => exact absurd hend (hall 0 ((hrules 0).2 ⟨c, r, hrule, hc, hl⟩)).2
    | @reduce c r hc hrule hl => exact absurd (hall c.rule ((hrules _).2 ⟨c, r, rfl, hc, hl⟩)).1 hrule
  | some β =>
    rw [haction] at hsettles
    cases β with
    | shift m => rw [hfree hx hα (.shift hsettles.1)]
    | accept =>
      obtain ⟨c, r, hrule, hc, hl⟩ := (hrules 0).1 hsettles.2
      rw [hfree hx hα (.accept hc hrule hl hsettles.1)]
    | reduce k =>
      obtain ⟨-, -, hk, hmem, -⟩ := hsettles
      rw [hfree hx hα (hreduce hmem hk)]
    | reduceMulti set =>
      obtain ⟨-, -, -, k, hkmem, l, hlmem, hkl, hk, hl⟩ := hsettles
      exact absurd (Action.reduce.inj (hfree hx (hreduce hkmem hk) (hreduce hlmem hl))) hkl
    | goto m => exact hsettles.elim

/-- Without conflicts no cell holds competing reductions. -/
lemma checkDeterministic_eq_ok (hfree : a.ConflictFree g) : t.checkDeterministic = .ok () := by
  refine Table.checkDeterministic_eq_ok_iff.2 fun n x set haction => ?_
  rcases h.action?_cases haction with ⟨-, m, -, heq⟩ | ⟨hx, rules, hrules, hsettles⟩
  · cases heq
  · obtain ⟨-, -, -, k, hkmem, l, hlmem, hkl, hk, hl⟩ := hsettles
    have heq := hfree hx (((hrules k).1 hkmem).candidate hk) (((hrules l).1 hlmem).candidate hl)
    exact hkl (Action.reduce.inj heq)

end Table.Fits

end Lalr
