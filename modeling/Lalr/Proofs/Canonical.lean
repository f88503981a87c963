import Lalr.Proofs.Cells

/-!
# The canonical collection

The canonical collection of a grammar is built without any splitting or merging of lookaheads.  An item is a
core with a single lookahead, and an item set is given by its kernel.  The closure of a kernel opens, for
each item `A ::= α . B β` with lookahead `y`, the rules of `B` with every terminal that can begin a string
derived from `β y` (`Items`).  The first kernel holds the augmenting rule with the end of input, and every
symbol that stands after a dot of a closure leads to the kernel with the dot moved over it (`Canonical`).

The closed automaton has one state for each set of cores that is the kernel of a canonical set, and its
lookaheads are those of all the canonical sets with that kernel taken together
(`lookahead_iff_exists_canonical`).  This needs every nonterminal to derive a terminal string.  Without that,
a kernel core can be without lookaheads, and then the closure of the canonical set stops short of cores that
the state has.
-/

namespace Lalr

namespace Augmented

/-- The terminal begins a string that is derived from the given one. -/
def Begins (g : Augmented) (u : Body) (t : Symbol) : Prop :=
  g.kinds.IsTerminal t ∧ ∃ rest, Derives g.productions u (t :: rest)

/-- The items of the closure of a kernel. -/
inductive Items (g : Augmented) (K : Core → Symbol → Prop) : Core → Symbol → Prop
  /-- The items of the kernel. -/
  | kernel {c : Core} {x : Symbol} (h : K c x) : Items g K c x
  /-- The rules opened by an item, with what begins the rest of its body and its lookahead. -/
  | expand {c : Core} {n : Nat} {rest : Body} {x y : Symbol} (h : Items g K c y) (ho : g.Opens c n rest)
      (hx : g.Begins (rest ++ [y]) x) : Items g K ⟨n, 0⟩ x

/-- The kernel of the first canonical set. -/
def startKernel (c : Core) (x : Symbol) : Prop :=
  c = ⟨augmentingRule, 0⟩ ∧ x = Symbol.eof

/-- The kernel that a symbol leads to: the items of the closure with the dot moved over the symbol. -/
def gotoKernel (g : Augmented) (K : Core → Symbol → Prop) (s : Symbol) (c : Core) (x : Symbol) : Prop :=
  ∃ d rest, g.Items K d x ∧ g.Marks d s rest ∧ c = d.advance

/-- The kernels of the canonical collection. -/
inductive Canonical (g : Augmented) : (Core → Symbol → Prop) → Prop
  /-- The kernel of the augmenting rule with the end of input. -/
  | start : Canonical g startKernel
  /-- What a symbol leads to from a canonical set, if it leads anywhere. -/
  | goto {K : Core → Symbol → Prop} {s : Symbol} (h : Canonical g K)
      (hs : ∃ c x, g.gotoKernel K s c x) : Canonical g (g.gotoKernel K s)

/-- The cores of a kernel. -/
def coresOf (K : Core → Symbol → Prop) (c : Core) : Prop := ∃ x, K c x

variable {g : Augmented}

/-- The lookaheads in the closure of a kernel are terminals when those of the kernel are. -/
lemma Items.isTerminal {K : Core → Symbol → Prop} (hK : ∀ c x, K c x → g.kinds.IsTerminal x) {c : Core}
    {x : Symbol} (h : g.Items K c x) : g.kinds.IsTerminal x := by
  induction h with
  | kernel h => exact hK _ _ h
  | expand _ _ hx _ => exact hx.1

/-- The lookaheads of canonical kernels are terminals. -/
lemma Canonical.isTerminal (wf : g.WellFormed) {K : Core → Symbol → Prop} (h : g.Canonical K) {c : Core}
    {x : Symbol} (hx : K c x) : g.kinds.IsTerminal x := by
  induction h generalizing c x with
  | start => exact hx.2 ▸ wf.eof
  | goto _ _ ih =>
    obtain ⟨d, rest, hd, -, -⟩ := hx
    exact hd.isTerminal fun _ _ hk => ih hk

/-- With a terminal behind the body, what begins the whole is what the body leads with. -/
lemma begins_iff_leads (wf : g.WellFormed) {rest : Body} {x y : Symbol} (hy : g.kinds.IsTerminal y) :
    g.Begins (rest ++ [y]) x ↔ Leads g.productions g.kinds rest y x :=
  (leads_iff_derives wf.not_isTerminal_lhs hy).symm

/-- Where every nonterminal derives terminals, the closure of a kernel has every core that its cores
reach. -/
lemma exists_items_iff (wf : g.WellFormed) (hg : g.Productive) {K : Core → Symbol → Prop}
    (hK : ∀ c x, K c x → g.kinds.IsTerminal x) {c : Core} :
    (∃ x, g.Items K c x) ↔ g.Reaches (coresOf K) c := by
  constructor
  · rintro ⟨x, hx⟩
    induction hx with
    | @kernel c x h => exact .kernel ⟨x, h⟩
    | expand _ ho _ ih => exact .expand ih ho
  · intro h
    induction h with
    | kernel h =>
      obtain ⟨x, hx⟩ := h
      exact ⟨x, .kernel hx⟩
    | expand _ ho ih =>
      obtain ⟨y, hy⟩ := ih
      obtain ⟨r, -, hm⟩ := id ho
      obtain ⟨x, hx⟩ := (hg.generates (hm.mem_kinds wf).2).exists_leads y
      exact ⟨x, .expand hy ho ((begins_iff_leads wf (hy.isTerminal hK)).2 hx)⟩

/-- The cores of the kernel that a symbol leads to are the moves of the dot. -/
lemma coresOf_gotoKernel (wf : g.WellFormed) (hg : g.Productive) {K : Core → Symbol → Prop}
    (hK : ∀ c x, K c x → g.kinds.IsTerminal x) {s : Symbol} {c : Core} :
    coresOf (g.gotoKernel K s) c ↔ g.Moves (coresOf K) s c := by
  constructor
  · rintro ⟨x, d, rest, hd, hm, rfl⟩
    exact ⟨d, rest, (exists_items_iff wf hg hK).1 ⟨x, hd⟩, hm, rfl⟩
  · rintro ⟨d, rest, hd, hm, rfl⟩
    obtain ⟨x, hx⟩ := (exists_items_iff wf hg hK).2 hd
    exact ⟨x, d, rest, hx, hm, rfl⟩

end Augmented

namespace Automaton

variable {g : Augmented} {a : Automaton}

/-- A lookahead of the least assignment is in a canonical set with the kernel of the state. -/
lemma Assigned.exists_canonical (wf : g.WellFormed) (hg : g.Productive) (h : a.Explored g) {n : Nat}
    {c : Core} {x : Symbol} (hx : a.Assigned g n c x) :
    ∃ K, g.Canonical K ∧ KernelAt a.states n = Augmented.coresOf K ∧ g.Items K c x := by
  induction hx with
  | start =>
    refine ⟨Augmented.startKernel, .start, funext fun c => propext ?_, .kernel ⟨rfl, rfl⟩⟩
    rw [h.start]
    exact ⟨fun hc => ⟨Symbol.eof, hc, rfl⟩, fun ⟨x, hx⟩ => hx.1⟩
  | expand _ ho hx ih =>
    obtain ⟨K, hK, hkernel, hitems⟩ := ih
    have hy := hitems.isTerminal fun _ _ hk => hK.isTerminal wf hk
    exact ⟨K, hK, hkernel, .expand hitems ho ((Augmented.begins_iff_leads wf hy).2 hx)⟩
  | @advance n m c rest x y _ hm hgoto ih =>
    obtain ⟨K, hK, hkernel, hitems⟩ := ih
    have hnext : g.gotoKernel K y c.advance x := ⟨c, rest, hitems, hm, rfl⟩
    refine ⟨g.gotoKernel K y, .goto hK ⟨_, _, hnext⟩, funext fun d => propext ?_, .kernel hnext⟩
    rw [(h.target hgoto).2.2.2, hkernel]
    exact (Augmented.coresOf_gotoKernel wf hg fun _ _ hk => hK.isTerminal wf hk).symm

/-- A canonical set has the kernel of a state, and its lookaheads are in the least assignment there. -/
lemma Explored.exists_state (wf : g.WellFormed) (hg : g.Productive) (h : a.Explored g)
    {K : Core → Symbol → Prop} (hK : g.Canonical K) :
    ∃ n, n < a.states.size ∧ KernelAt a.states n = Augmented.coresOf K ∧
      ∀ c x, g.Items K c x → a.Assigned g n c x := by
  -- it is enough to follow the lookaheads of the kernel
  have hclose {n : Nat} {K : Core → Symbol → Prop} (hK : g.Canonical K)
      (hkernel : ∀ c x, K c x → a.Assigned g n c x) {c : Core} {x : Symbol} (hx : g.Items K c x) :
      a.Assigned g n c x := by
    induction hx with
    | kernel hx => exact hkernel _ _ hx
    | expand hy ho hx ih =>
      have hterminal := hy.isTerminal fun _ _ hk => hK.isTerminal wf hk
      exact .expand ih ho ((Augmented.begins_iff_leads wf hterminal).1 hx)
  induction hK with
  | start =>
    refine ⟨0, h.size_pos, funext fun c => propext ?_, fun c x => hclose .start ?_⟩
    · rw [h.start]
      exact ⟨fun hc => ⟨Symbol.eof, hc, rfl⟩, fun ⟨x, hx⟩ => hx.1⟩
    · rintro c x ⟨rfl, rfl⟩
      exact .start
  | @goto K s hK hs ih =>
    obtain ⟨n, -, hkernel, hitems⟩ := ih
    obtain ⟨c, x, d, rest, hd, hm, -⟩ := id hs
    have hreaches : g.Reaches (KernelAt a.states n) d := by
      rw [hkernel]
      exact (Augmented.exists_items_iff wf hg fun _ _ hk => hK.isTerminal wf hk).1 ⟨x, hd⟩
    obtain ⟨m, hgoto⟩ := h.exists_target ⟨d, rest, hreaches, hm⟩
    refine ⟨m, (h.target hgoto).2.1, funext fun e => propext ?_, fun e z => hclose (.goto hK hs) ?_⟩
    · rw [(h.target hgoto).2.2.2, hkernel]
      exact (Augmented.coresOf_gotoKernel wf hg fun _ _ hk => hK.isTerminal wf hk).symm
    · rintro e z ⟨e', rest', he', hm', rfl⟩
      exact .advance (hitems _ _ he') hm' hgoto

/-- The lookaheads of a closed state are those of all the canonical sets with its kernel. -/
lemma Closed.looksAt_iff_exists_canonical (wf : g.WellFormed) (hg : g.Productive) (h : a.Closed g)
    {n : Nat} {c : Core} {x : Symbol} :
    LooksAt a.states n c x ↔
      ∃ K, g.Canonical K ∧ KernelAt a.states n = Augmented.coresOf K ∧ g.Items K c x := by
  rw [h.looksAt_iff wf hg]
  refine ⟨Assigned.exists_canonical wf hg h.explored, ?_⟩
  rintro ⟨K, hK, hkernel, hx⟩
  obtain ⟨m, hm, hkernel', hitems⟩ := h.explored.exists_state wf hg hK
  have hassigned := hitems c x hx
  have hn : n < a.states.size := by
    obtain ⟨s, hs, hhas⟩ := ((h.looksAt_iff wf hg).2 hassigned).hasAt
    have hreaches := h.reaches ⟨s, hs, hhas⟩
    rw [hkernel', ← hkernel] at hreaches
    exact lt_size_of_reaches hreaches
  rwa [h.explored.injective hn hm (hkernel.trans hkernel'.symm)]

end Automaton

namespace Grammar

variable {grammar : Grammar} {g : Augmented}

/-- Every nonterminal of the augmented grammar derives terminals when every nonterminal of the given one
does. -/
lemma productive_of_generates (hg : grammar.augment = .ok g)
    (h : ∀ A, grammar.classification.IsNonterminal A →
      Generates grammar.augmentedProductions grammar.classification [A]) : g.Productive := by
  obtain ⟨-, -, -, hkinds, -⟩ := augment_eq_ok hg
  intro A hA
  rw [hkinds] at hA ⊢
  obtain ⟨w, hw, hterminal⟩ := h A hA
  exact ⟨w, hw.mono fun p hp => (mem_productions_iff hg).2 hp, hterminal⟩

/-- The lookaheads are those of the canonical collection, kernel by kernel.  Where every nonterminal derives a
terminal string, each state has exactly one item for each core that its kernel reaches, and no others; the
lookaheads of the item are those that it has in the canonical sets with the kernel of the state; each
canonical set has the kernel of a state; and the placeholder is nowhere a lookahead. -/
theorem lookahead_iff_exists_canonical (hg : grammar.augment = .ok g)
    (hgenerates : ∀ A, grammar.classification.IsNonterminal A →
      Generates grammar.augmentedProductions grammar.classification [A]) (verbose : Bool) :
    ∃ c, grammar.construct verbose = .ok c ∧ c.grammar = g ∧
      (∀ (n : Nat) (s : ItemSet), c.automaton.states[n]? = some s →
        (∀ core, g.Reaches s.HasKernel core → ∃ i ∈ s.items, i.core = core ∧
          (∀ j ∈ s.items, j.core = core → j = i) ∧
          ∀ x, x ∈ i.lookaheads ↔
            ∃ K, g.Canonical K ∧ (∀ k, s.HasKernel k ↔ ∃ y, K k y) ∧ g.Items K core x) ∧
        ∀ i ∈ s.items, g.Reaches s.HasKernel i.core ∧ Symbol.placeholder ∉ i.lookaheads) ∧
      ∀ K, g.Canonical K → ∃ (n : Nat) (s : ItemSet), c.automaton.states[n]? = some s ∧
        ∀ k, s.HasKernel k ↔ ∃ y, K k y := by
  have wf := wellFormed_of_augment hg
  have hproductive := productive_of_generates hg hgenerates
  obtain ⟨c, hc, hgrammar, hclosed, -⟩ := exists_construct_eq_ok hg verbose
  refine ⟨c, hc, hgrammar, fun n s hs => ⟨fun core hcore => ?_, fun i hi => ⟨?_, fun hx => ?_⟩⟩, ?_⟩
  · rw [← kernelAt_eq hs] at hcore
    -- the core has a lookahead, so it has an item
    obtain ⟨y, hy⟩ := hclosed.explored.exists_assigned wf hproductive hcore
    obtain ⟨s', hs', i, hi, hicore, -⟩ := (hclosed.looksAt_iff wf hproductive).2 hy
    obtain rfl := Option.some.inj (hs.symm.trans hs')
    have hunique : ∀ j ∈ s.items, j.core = core → j = i := fun j hj hjcore =>
      List.inj_on_of_nodup_map (hclosed.distinct s (Array.mem_of_getElem? hs)) hj hi
        (hjcore.trans hicore.symm)
    refine ⟨i, hi, hicore, hunique, fun x => ?_⟩
    have hlooks : x ∈ i.lookaheads ↔ LooksAt c.automaton.states n core x := by
      refine ⟨fun hx => ⟨s, hs, i, hi, hicore, hx⟩, ?_⟩
      rintro ⟨s', hs', j, hj, hjcore, hx⟩
      obtain rfl := Option.some.inj (hs.symm.trans hs')
      exact hunique j hj hjcore ▸ hx
    rw [hlooks, hclosed.looksAt_iff_exists_canonical wf hproductive, kernelAt_eq hs]
    simp only [funext_iff, eq_iff_iff, Augmented.coresOf]
  · have hreaches := hclosed.reaches ⟨s, hs, i, hi, rfl⟩
    rwa [kernelAt_eq hs] at hreaches
  · exact wf.ne_placeholder (hclosed.isTerminal wf ⟨s, hs, i, hi, rfl, hx⟩) rfl
  · intro K hK
    obtain ⟨n, hn, hkernel, -⟩ := hclosed.explored.exists_state wf hproductive hK
    have hs := Array.getElem?_eq_getElem hn
    refine ⟨n, _, hs, fun k => ?_⟩
    rw [kernelAt_eq hs] at hkernel
    rw [hkernel]
    rfl

/-- The grammar of nested pairs meets the conditions. -/
theorem lookahead_iff_exists_canonical_nested :
    ∃ g c, nested.augment = .ok g ∧
      (∀ A, nested.classification.IsNonterminal A →
        Generates nested.augmentedProductions nested.classification [A]) ∧
      nested.construct false = .ok c ∧
      ∀ (n : Nat) (s : ItemSet), c.automaton.states[n]? = some s → ∀ core, g.Reaches s.HasKernel core →
        ∃ i ∈ s.items, i.core = core ∧ ∀ x, x ∈ i.lookaheads ↔
          ∃ K, g.Canonical K ∧ (∀ k, s.HasKernel k ↔ ∃ y, K k y) ∧ g.Items K core x := by
  obtain ⟨g, hg⟩ := exists_augment_nested
  obtain ⟨c, hc, -, hstates, -⟩ :=
    lookahead_iff_exists_canonical hg (fun A hA => generates_nested hA) false
  refine ⟨g, c, hg, fun A hA => generates_nested hA, hc, fun n s hs core hcore => ?_⟩
  obtain ⟨i, hi, hicore, -, hx⟩ := (hstates n s hs).1 core hcore
  exact ⟨i, hi, hicore, hx⟩

end Grammar

end Lalr
