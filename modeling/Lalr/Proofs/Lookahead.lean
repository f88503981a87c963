import Lalr.Proofs.Propagation

/-!
# The closed automaton

After the lookaheads of the kernels have been found, every state is closed.  `Automaton.Closed` says what the
outcome is: the states and transitions are those that were explored, a state has its kernel cores and the
cores that get a lookahead, and the lookaheads are the closure of those carried to the kernel.

From this the laws follow that the theory of parsers works with.  The end of input is a lookahead of the
augmenting rule, and the lookaheads are closed under expansion and under moving the dot
(`Closed.start`, `Closed.expand`, `Closed.advance`).  Where every nonterminal derives terminals they are the
least assignment with these laws (`Closed.looksAt_iff`); without that condition a state may have lookaheads
that no complete input brings about.
-/

namespace Lalr

/-- The state has an item with the given core. -/
def HasAt (states : Array ItemSet) (n : Nat) (c : Core) : Prop :=
  ∃ s, states[n]? = some s ∧ s.Has c

/-- The state has an item with the given core and, among others, the given lookahead. -/
def LooksAt (states : Array ItemSet) (n : Nat) (c : Core) (x : Symbol) : Prop :=
  ∃ s, states[n]? = some s ∧ s.Looks c x

/-- A state has the cores with a lookahead. -/
lemma LooksAt.hasAt {states : Array ItemSet} {n : Nat} {c : Core} {x : Symbol}
    (h : LooksAt states n c x) : HasAt states n c := by
  obtain ⟨s, hs, hx⟩ := h
  exact ⟨s, hs, hx.has⟩

namespace Automaton

variable {g : Augmented} {a a' : Automaton}

/-- The explored states are closed, with the carried lookaheads in their kernels. -/
structure Closed (g : Augmented) (a : Automaton) : Prop where
  explored : a.Explored g
  distinct : ∀ s ∈ a.states, s.Distinct
  hasAt_iff : ∀ {n : Nat} {c : Core},
    HasAt a.states n c ↔ KernelAt a.states n c ∨ ∃ x, LooksAt a.states n c x
  looksAt_iff_closes : ∀ {n : Nat} {c : Core} {x : Symbol}, LooksAt a.states n c x ↔
    g.Closes (KernelAt a.states n) (fun k y => KernelAt a.states n k ∧ a.Carried g ⟨n, k⟩ y) c x

/-! ### Closing the states -/

/-- Automata with the same kernels and transitions carry the same lookaheads. -/
lemma Carried.of_same (hkernel : KernelAt a'.states = KernelAt a.states)
    (htransitions : a'.transitions = a.transitions) {site : Site} {x : Symbol}
    (h : a.Carried g site x) : a'.Carried g site x := by
  have hgoto : a'.goto? = a.goto? := by
    funext n y
    rw [goto?, goto?, htransitions]
  induction h with
  | start => exact .start
  | arises h =>
    refine .arises ?_
    unfold Arises at h ⊢
    rwa [hkernel, hgoto]
  | link _ hl ih =>
    refine .link ih ?_
    unfold Links at hl ⊢
    rwa [hkernel, hgoto]

/-- Automata with the same kernels, transitions and number of states are explored together. -/
lemma Explored.of_same (h : a.Explored g) (hkernel : KernelAt a'.states = KernelAt a.states)
    (htransitions : a'.transitions = a.transitions) (hsize : a'.states.size = a.states.size) :
    a'.Explored g := by
  have hgoto : a'.goto? = a.goto? := by
    funext n y
    rw [goto?, goto?, htransitions]
  constructor
  · exact hsize ▸ h.size_pos
  · exact hkernel ▸ h.start
  · exact hkernel ▸ h.valid
  · rw [hkernel, hsize]
    exact h.injective
  · rw [hkernel, hsize, hgoto]
    exact h.target
  · rw [hkernel, hgoto]
    exact h.exists_target
  · rw [hsize, hgoto]
    exact h.entered

/-- Giving a state its lookaheads keeps its cores. -/
lemma getElem?_withLookaheads {m : Lookaheads} {n : Nat} {s : ItemSet} (hs : a.states[n]? = some s) :
    ∃ t, (a.withLookaheads m).states[n]? = some t ∧ (s.Distinct → t.Distinct) ∧
      (∀ c, t.Has c ↔ s.Has c) ∧ (∀ c, t.HasKernel c ↔ s.HasKernel c) ∧
      ∀ c x, t.Looks c x ↔ s.Has c ∧ x ∈ Lookaheads.get m ⟨n, c⟩ := by
  refine ⟨{ s with items := s.items.map fun i => { i with lookaheads := Lookaheads.get m ⟨n, i.core⟩ } },
    ?_, ?_, fun c => ?_, fun c => ?_, fun c x => ?_⟩
  · unfold withLookaheads
    rw [Array.getElem?_mapIdx, hs]
    rfl
  · intro hdistinct
    unfold ItemSet.Distinct
    rw [List.map_map]
    exact hdistinct
  · simp [ItemSet.Has]
  · simp [ItemSet.HasKernel]
  · simp only [ItemSet.Looks, ItemSet.Has, List.mem_map, exists_exists_and_eq_and]
    constructor
    · rintro ⟨i, hi, rfl, hx⟩
      exact ⟨⟨i, hi, rfl⟩, hx⟩
    · rintro ⟨⟨i, hi, rfl⟩, hx⟩
      exact ⟨i, hi, rfl, hx⟩

/-- The item set `u` is what becomes of the kernel `s` of state `n`. -/
structure ClosedFrom (g : Augmented) (a : Automaton) (n : Nat) (s u : ItemSet) : Prop where
  distinct : u.Distinct
  hasKernel : ∀ c, u.HasKernel c ↔ s.HasKernel c
  has : ∀ c, u.Has c ↔ s.HasKernel c ∨ ∃ x, u.Looks c x
  looks : ∀ c x, u.Looks c x ↔
    g.Closes s.HasKernel (fun k y => s.HasKernel k ∧ a.Carried g ⟨n, k⟩ y) c x

/-- Closing a state with its lookaheads succeeds. -/
lemma Explored.exists_closeState_eq_ok (wf : g.WellFormed) (h : a.Explored g) {m : Lookaheads}
    (hm : ∀ site x, x ∈ Lookaheads.get m site ↔ a.Carried g site x) {n : Nat} {s t : ItemSet}
    (hs : a.states[n]? = some s) (hdistinct : s.Distinct) (hkernel : ∀ c, s.Has c → s.HasKernel c)
    (ht : (a.withLookaheads m).states[n]? = some t) : ∃ u, g.close t = .ok u ∧ a.ClosedFrom g n s u := by
  obtain ⟨t', ht', htdistinct, hthas, htkernel, htlooks⟩ := getElem?_withLookaheads (m := m) hs
  obtain rfl := Option.some.inj (ht.symm.trans ht')
  have hhas : t.Has = s.HasKernel := by
    funext c
    exact propext ((hthas c).trans ⟨hkernel c, ItemSet.HasKernel.has⟩)
  have hlooks : t.Looks = fun k y => s.HasKernel k ∧ a.Carried g ⟨n, k⟩ y := by
    funext c x
    rw [htlooks, hm, ← hhas, hthas]
  obtain ⟨u, hu, hudistinct, hukernel, huhas, hulooks⟩ := Augmented.exists_close_eq_ok wf
    (htdistinct hdistinct) fun c hc => by
      rw [hhas] at hc
      exact h.valid ⟨s, hs, hc⟩
  rw [hhas, hlooks] at huhas hulooks
  refine ⟨u, hu, hudistinct, fun c => (hukernel c).trans (htkernel c), fun c => ?_, hulooks⟩
  rw [huhas]
  simp only [hulooks]

/-- Closing the states of an explored automaton of kernel items succeeds. -/
lemma Explored.exists_close_eq_ok (wf : g.WellFormed) (h : a.Explored g)
    (hbare : ∀ s ∈ a.states, s.Distinct ∧ ∀ c, s.Has c → s.HasKernel c) {m : Lookaheads}
    (hm : ∀ site x, x ∈ Lookaheads.get m site ↔ a.Carried g site x) :
    ∃ a', (a.withLookaheads m).close g = .ok a' ∧ a'.Closed g := by
  have hsize : (a.withLookaheads m).states.size = a.states.size := by simp [withLookaheads]
  have hstate {n : Nat} {t : ItemSet} (ht : (a.withLookaheads m).states.toList[n]? = some t) :
      ∃ s, a.states[n]? = some s ∧ ∃ u, g.close t = .ok u ∧ a.ClosedFrom g n s u := by
    rw [Array.getElem?_toList] at ht
    have hlt : n < a.states.size := hsize ▸ (Array.getElem?_eq_some_iff.1 ht).1
    have hs := Array.getElem?_eq_getElem hlt
    obtain ⟨hdistinct, hkernel⟩ := hbare _ (Array.mem_of_getElem? hs)
    exact ⟨_, hs, h.exists_closeState_eq_ok wf hm hs hdistinct hkernel ht⟩
  obtain ⟨us, hus⟩ := exists_mapM_eq_ok fun t ht => by
    obtain ⟨n, hn⟩ := List.mem_iff_getElem?.1 ht
    obtain ⟨s, -, u, hu, -⟩ := hstate hn
    exact ⟨u, hu⟩
  have hlength : us.length = a.states.size := by
    rw [← (mapM_eq_ok.1 hus).length_eq, Array.length_toList, hsize]
  -- the closed states, by number
  have hget {n : Nat} {u : ItemSet} (hu : us.toArray[n]? = some u) :
      ∃ s, a.states[n]? = some s ∧ a.ClosedFrom g n s u := by
    rw [List.getElem?_toArray] at hu
    obtain ⟨t, ht, htu⟩ := getElem?_of_mapM_eq_ok hus hu
    obtain ⟨s, hs, u', hu', hclosed⟩ := hstate ht
    obtain rfl := Except.ok.inj (htu.symm.trans hu')
    exact ⟨s, hs, hclosed⟩
  have hex {n : Nat} {s : ItemSet} (hs : a.states[n]? = some s) :
      ∃ u, us.toArray[n]? = some u ∧ a.ClosedFrom g n s u := by
    have hlt : n < us.length := hlength ▸ (Array.getElem?_eq_some_iff.1 hs).1
    have hu : us.toArray[n]? = some us[n] := by simp [hlt]
    obtain ⟨s', hs', hclosed⟩ := hget hu
    obtain rfl := Option.some.inj (hs.symm.trans hs')
    exact ⟨us[n], hu, hclosed⟩
  set a' : Automaton := { a with states := us.toArray } with ha'
  have htransitions : a'.transitions = a.transitions := rfl
  have hkernelAt : KernelAt a'.states = KernelAt a.states := by
    funext n c
    refine propext ⟨?_, ?_⟩
    · rintro ⟨u, hu, hc⟩
      obtain ⟨s, hs, hclosed⟩ := hget hu
      exact ⟨s, hs, (hclosed.hasKernel c).1 hc⟩
    · rintro ⟨s, hs, hc⟩
      obtain ⟨u, hu, hclosed⟩ := hex hs
      exact ⟨u, hu, (hclosed.hasKernel c).2 hc⟩
  have hcarried (site : Site) (x : Symbol) : a'.Carried g site x ↔ a.Carried g site x :=
    ⟨fun h => h.of_same hkernelAt.symm htransitions.symm, fun h => h.of_same hkernelAt htransitions⟩
  refine ⟨a', by rw [Automaton.close, hus]; rfl, ⟨?_, ?_, ?_, ?_⟩⟩
  · exact h.of_same hkernelAt htransitions (by simpa [ha'] using hlength)
  · intro u hu
    obtain ⟨n, hn⟩ := Array.mem_iff_getElem?.1 hu
    obtain ⟨s, -, hclosed⟩ := hget hn
    exact hclosed.distinct
  · intro n c
    constructor
    · rintro ⟨u, hu, hc⟩
      obtain ⟨s, hs, hclosed⟩ := hget hu
      rcases (hclosed.has c).1 hc with hc | ⟨x, hx⟩
      · exact Or.inl ⟨u, hu, (hclosed.hasKernel c).2 hc⟩
      · exact Or.inr ⟨x, u, hu, hx⟩
    · rintro (⟨u, hu, hc⟩ | ⟨x, u, hu, hx⟩)
      · exact ⟨u, hu, hc.has⟩
      · exact ⟨u, hu, hx.has⟩
  · intro n c x
    simp only [hkernelAt, hcarried]
    constructor
    · rintro ⟨u, hu, hx⟩
      obtain ⟨s, hs, hclosed⟩ := hget hu
      rw [kernelAt_eq hs]
      exact (hclosed.looks c x).1 hx
    · intro hx
      have hlt := lt_size_of_reaches (hx.reaches fun _ _ hl => hl.1)
      have hs := Array.getElem?_eq_getElem hlt
      obtain ⟨u, hu, hclosed⟩ := hex hs
      rw [kernelAt_eq hs] at hx
      exact ⟨u, hu, (hclosed.looks c x).2 hx⟩

/-! ### The laws of lookaheads -/

namespace Closed

variable (h : a.Closed g)
include h

/-- The end of input follows the augmenting rule. -/
lemma start : LooksAt a.states 0 ⟨0, 0⟩ Symbol.eof :=
  h.looksAt_iff_closes.2 (.seed ⟨(h.explored.start _).2 rfl, .start⟩)

/-- Lookaheads are handed down to the rules that a core opens. -/
lemma expand {n i : Nat} {c : Core} {rest : Body} {x y : Symbol} (hc : LooksAt a.states n c y)
    (ho : g.Opens c i rest) (hx : Leads g.productions g.kinds rest y x) :
    LooksAt a.states n ⟨i, 0⟩ x :=
  h.looksAt_iff_closes.2 (.expand (h.looksAt_iff_closes.1 hc) ho hx)

/-- A state reaches the cores that it has. -/
lemma reaches {n : Nat} {c : Core} (hc : HasAt a.states n c) : g.Reaches (KernelAt a.states n) c := by
  rcases h.hasAt_iff.1 hc with hc | ⟨x, hx⟩
  · exact .kernel hc
  · exact (h.looksAt_iff_closes.1 hx).reaches fun _ _ hl => hl.1

/-- A transition carries lookaheads over to the core with the dot moved. -/
lemma advance (wf : g.WellFormed) {n m : Nat} {c : Core} {rest : Body} {x y : Symbol}
    (hc : LooksAt a.states n c x) (hm : g.Marks c y rest) (hgoto : a.goto? n y = some m) :
    LooksAt a.states m c.advance x := by
  have hkernel : KernelAt a.states m c.advance :=
    ((h.explored.target hgoto).2.2.2 _).2 ⟨c, rest, h.reaches hc.hasAt, hm, rfl⟩
  refine h.looksAt_iff_closes.2 (.seed ⟨hkernel, ?_⟩)
  obtain ⟨k, hk, hprobe⟩ := (h.looksAt_iff_closes.1 hc).exists_probes wf fun _ _ hl => hl.1
  rcases hprobe with ⟨hprobe, hne⟩ | ⟨hprobe, -, hcarried⟩
  · exact .arises ⟨n, k, c, y, rest, m, hk, hprobe, hne, hm, hgoto, rfl⟩
  · exact .link hcarried ⟨hk, c, y, rest, m, hprobe, hm, hgoto, rfl⟩

/-- Lookaheads are terminals. -/
lemma isTerminal (wf : g.WellFormed) {n : Nat} {c : Core} {x : Symbol} (hx : LooksAt a.states n c x) :
    g.kinds.IsTerminal x := by
  have hcarried {site : Site} {y : Symbol} (hy : a.Carried g site y) : g.kinds.IsTerminal y := by
    induction hy with
    | start => exact wf.eof
    | arises hy =>
      obtain ⟨n, k, c, z, rest, m, -, hprobe, hne, -⟩ := hy
      exact hprobe.isTerminal hne
    | link _ _ ih => exact ih
  exact (h.looksAt_iff_closes.1 hx).isTerminal fun _ _ hl => hcarried hl.2

end Closed

/-! ### The least assignment of lookaheads -/

/-- The least assignment of lookaheads that has the end of input at the augmenting rule and is closed under
expansion and under moving the dot. -/
inductive Assigned (g : Augmented) (a : Automaton) : Nat → Core → Symbol → Prop
  /-- The end of input follows the augmenting rule. -/
  | start : Assigned g a 0 ⟨0, 0⟩ Symbol.eof
  /-- Lookaheads are handed down to the rules that a core opens. -/
  | expand {n i : Nat} {c : Core} {rest : Body} {x y : Symbol} (h : Assigned g a n c y)
      (ho : g.Opens c i rest) (hx : Leads g.productions g.kinds rest y x) : Assigned g a n ⟨i, 0⟩ x
  /-- A transition carries lookaheads over to the core with the dot moved. -/
  | advance {n m : Nat} {c : Core} {rest : Body} {x y : Symbol} (h : Assigned g a n c x)
      (hm : g.Marks c y rest) (hgoto : a.goto? n y = some m) : Assigned g a m c.advance x

end Automaton

/-- Every nonterminal derives some string of terminals. -/
def Augmented.Productive (g : Augmented) : Prop :=
  ∀ A, g.kinds.IsNonterminal A → Generates g.productions g.kinds [A]

/-- With every nonterminal every string of symbols derives terminals. -/
lemma Augmented.Productive.generates {g : Augmented} (h : g.Productive) {u : Body}
    (hu : ∀ x ∈ u, x ∈ g.kinds) : Generates g.productions g.kinds u := by
  refine generates_of_forall fun x hx => ?_
  rcases isTerminal_or_isNonterminal (hu x hx) with ht | hn
  · exact generates_terminal ht
  · exact h x hn

namespace Automaton

variable {g : Augmented} {a : Automaton}

/-- Where every nonterminal derives terminals, every core that a state reaches has a lookahead. -/
lemma Explored.exists_assigned (wf : g.WellFormed) (h : a.Explored g) (hg : g.Productive) {n : Nat}
    {c : Core} (hc : g.Reaches (KernelAt a.states n) c) : ∃ x, a.Assigned g n c x := by
  refine h.reaches_induction (P := fun n c => ∃ x, a.Assigned g n c x) ⟨_, .start⟩ ?_ ?_ hc
  · rintro n i c rest - ⟨y, hy⟩ ho
    obtain ⟨r, -, hm⟩ := id ho
    obtain ⟨x, hx⟩ := (hg.generates (hm.mem_kinds wf).2).exists_leads y
    exact ⟨x, .expand hy ho hx⟩
  · rintro n m c y rest ⟨x, hx⟩ hm hgoto
    exact ⟨x, .advance hx hm hgoto⟩

/-- Where every nonterminal derives terminals, what is carried to a kernel is in the least assignment. -/
lemma Carried.assigned (wf : g.WellFormed) (h : a.Explored g) (hg : g.Productive) {site : Site}
    {x : Symbol} (hx : a.Carried g site x) : a.Assigned g site.state site.core x := by
  induction hx with
  | start => exact .start
  | arises hx =>
    obtain ⟨n, k, c, y, rest, m, hk, hprobe, hne, hm, hgoto, rfl⟩ := hx
    obtain ⟨z, hz⟩ := h.exists_assigned wf hg (.kernel hk)
    exact .advance (hprobe.of_ne_placeholder (R := a.Assigned g n) .expand wf hne hz) hm hgoto
  | @link source target x _ hl ih =>
    obtain ⟨-, c, y, rest, m, hprobe, hm, hgoto, rfl⟩ := hl
    exact .advance (hprobe.of_placeholder (R := a.Assigned g source.state) .expand wf ih) hm hgoto

/-- Where every nonterminal derives terminals, the lookaheads of the closed automaton are the least
assignment. -/
lemma Closed.looksAt_iff (wf : g.WellFormed) (h : a.Closed g) (hg : g.Productive) {n : Nat} {c : Core}
    {x : Symbol} : LooksAt a.states n c x ↔ a.Assigned g n c x := by
  constructor
  · rw [h.looksAt_iff_closes]
    intro hx
    induction hx with
    | seed hl => exact hl.2.assigned wf h.explored hg
    | begin hc ho hx =>
      obtain ⟨y, hy⟩ := h.explored.exists_assigned wf hg (.kernel hc)
      exact .expand hy ho (Or.inl hx)
    | expand _ ho hx ih => exact .expand ih ho hx
  · intro hx
    induction hx with
    | start => exact h.start
    | expand _ ho hx ih => exact h.expand ih ho hx
    | advance _ hm hgoto ih => exact h.advance wf ih hm hgoto

/-! ### The construction of the closed automaton -/

/-- The lookaheads that the computed links carry are those that links carry. -/
lemma spreads_iff_carried {ts : List Transfer}
    (harises : ∀ target x, (∃ t ∈ ts, t.target = target ∧ x ∈ t.generated) ↔ a.Arises g target x)
    (hlinks : ∀ source target, (source, target) ∈ linksOf ts ↔ a.Links g source target) {site : Site}
    {x : Symbol} :
    Lookaheads.Spreads (linksOf ts) (Lookaheads.ofTransfers ts) site x ↔ a.Carried g site x := by
  constructor
  · intro hx
    induction hx with
    | given hx =>
      rcases Lookaheads.mem_get_ofTransfers.1 hx with ⟨rfl, rfl⟩ | hx
      · exact .start
      · exact .arises ((harises _ _).1 hx)
    | link _ hl ih => exact .link ih ((hlinks _ _).1 hl)
  · intro hx
    induction hx with
    | start => exact .given (Lookaheads.mem_get_ofTransfers.2 (Or.inl ⟨rfl, rfl⟩))
    | arises hx => exact .given (Lookaheads.mem_get_ofTransfers.2 (Or.inr ((harises _ _).2 hx)))
    | link _ hl ih => exact .link ih ((hlinks _ _).2 hl)

/-- Every step up to the closed automaton succeeds. -/
theorem exists_closed_eq_ok (wf : g.WellFormed) :
    ∃ bare ts m passes a, g.automaton = .ok bare ∧ g.transfers bare = .ok ts ∧
      (Lookaheads.ofTransfers ts).propagate (linksOf ts) = .ok (m, passes) ∧
      (bare.withLookaheads m).close g = .ok a ∧ a.Closed g := by
  obtain ⟨bare, hbare, hexplored, hitems⟩ := Augmented.exists_automaton_eq_ok wf
  obtain ⟨ts, hts, harises, hlinks⟩ := exists_transfers_eq_ok wf hexplored
  obtain ⟨m, passes, hm, hget⟩ :=
    Lookaheads.exists_propagate_eq_ok (linksOf ts) (Lookaheads.ofTransfers ts)
  obtain ⟨a, ha, hclosed⟩ := hexplored.exists_close_eq_ok wf hitems fun site x =>
    (hget site x).trans (spreads_iff_carried harises hlinks)
  exact ⟨bare, ts, m, passes, a, hbare, hts, hm, ha, hclosed⟩

end Automaton

end Lalr
