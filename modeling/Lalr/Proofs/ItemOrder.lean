import Lalr.Proofs.Following
import Lalr.Proofs.LeastClosure

/-!
# The order of the items

The items of a state stand in the order in which they were put there: inserting an item, closing a set and assigning
lookaheads leave the items that are there in their places.  A state other than the first one begins as the kernel
that a symbol leads to from some state, with the cores in the order of the moves (`Augmented.LeadsTo`).

Where the initial symbol comes after no dot, this puts the complete augmenting item, if a state has it, before all the
other items of the state (`Automaton.exists_cores_eq_cons`).
-/

namespace Lalr

/-! ### Kernels and closures -/

/-- The kernel of a list of cores begins with the first of them. -/
lemma Exploration.exists_kernelOf_cons (c : Core) (cores : List Core) :
    ∃ rest, (kernelOf (c :: cores)).items.map Item.core = c :: rest := by
  obtain ⟨rest, hrest⟩ := ((ItemSet.insert {} ⟨c, true, ∅⟩).1.grows_merge
    (cores.map fun d => ⟨d, true, ∅⟩)).prefix_map_core
  refine ⟨rest, ?_⟩
  rw [kernelOf, ItemSet.ofList, List.map_cons, ItemSet.merge_cons, ← hrest]
  rfl

/-- Assigning lookaheads and closing the states keeps the kernel of every state and leaves its items in their
places. -/
lemma Automaton.Explored.exists_of_close {g : Augmented} {bare a : Automaton} (hbare : bare.Explored g)
    (wf : g.WellFormed) (hitems : ∀ s ∈ bare.states, s.Distinct ∧ ∀ c, s.Has c → s.HasKernel c) {m : Lookaheads}
    (h : (bare.withLookaheads m).close g = .ok a) {n : Nat} {t : ItemSet} (ht : a.states[n]? = some t) :
    ∃ s, bare.states[n]? = some s ∧ s.items.map Item.core <+: t.items.map Item.core ∧
      ∀ c, t.HasKernel c ↔ s.HasKernel c := by
  obtain ⟨states, hstates, heq⟩ := bind_eq_ok.1 h
  obtain rfl := Except.ok.inj heq
  rw [List.getElem?_toArray] at ht
  obtain ⟨u, hu, hclose⟩ := getElem?_of_mapM_eq_ok hstates ht
  rw [Array.getElem?_toList, withLookaheads, Array.getElem?_mapIdx, Option.map_eq_some_iff] at hu
  obtain ⟨s, hs, rfl⟩ := hu
  have hbegins := (Augmented.grows_close hclose).prefix_map_core
  rw [List.map_map] at hbegins
  obtain ⟨hdistinct, hkernel⟩ := hitems s (Array.mem_of_getElem? hs)
  obtain ⟨u, hu, hudistinct, huhas, hukernel, -⟩ := getElem?_withLookaheads (m := m) hs
  rw [withLookaheads, Array.getElem?_mapIdx, hs] at hu
  obtain rfl := Option.some.inj hu
  obtain ⟨t', ht', -, htkernel, -⟩ := Augmented.exists_close_eq_ok wf (hudistinct hdistinct) fun c hc =>
    hbare.valid ⟨s, hs, hkernel c ((huhas c).1 hc)⟩
  obtain rfl := Except.ok.inj (hclose.symm.trans ht')
  exact ⟨s, hs, hbegins, fun c => (htkernel c).trans (hukernel c)⟩

/-! ### Exploration -/

/-- The second set is the kernel that a symbol leads to from the first one, whose nonterminals have been found. -/
def Augmented.LeadsTo (g : Augmented) (u s : ItemSet) : Prop :=
  ∃ xs groups x cores, g.closureNonterminals u = .ok xs ∧ u.nonterminals = some xs ∧
    g.moves u = .ok groups ∧ (x, cores) ∈ groups ∧ s.items = (Exploration.kernelOf cores).items

namespace Exploration

variable {g : Augmented} {e e' : Exploration} {n : Nat}

/-- The first state is that of the augmenting rule, and the others are what the first `n` states lead to. -/
structure Traced (g : Augmented) (n : Nat) (e : Exploration) : Prop where
  first : ∀ {s : ItemSet}, e.states[0]? = some s → s.items = (kernelOf [⟨0, 0⟩]).items
  entered : ∀ {m : Nat} {s : ItemSet}, 0 < m → e.states[m]? = some s →
    ∃ k u, k < n ∧ e.states[k]? = some u ∧ g.LeadsTo u s

/-- Entering kernels keeps the states that are known and adds some of these kernels. -/
lemma enterAll_states {groups : List (Symbol × List Core)} {row : SymbolMap Nat}
    (h : e.enterAll groups = (e', row)) :
    (∀ m, m < e.states.size → e'.states[m]? = e.states[m]?) ∧
      ∀ (m : Nat) s, e'.states[m]? = some s → e.states[m]? = some s ∨ ∃ p ∈ groups, s = kernelOf p.2 := by
  induction groups using List.reverseRecOn generalizing e' row with
  | nil =>
    obtain ⟨rfl, rfl⟩ := Prod.mk.inj h
    exact ⟨fun _ _ => rfl, fun _ _ => Or.inl⟩
  | append_singleton groups p ih =>
    rcases hinit : e.enterAll groups with ⟨e₁, row₁⟩
    obtain ⟨hkeep, hnew⟩ := ih hinit
    have hlast : e' = (e₁.enter p.2).1 := by
      unfold enterAll at hinit h
      rw [List.foldl_append, hinit] at h
      exact (Prod.mk.inj h).1.symm
    have hweaken {s : ItemSet} : (∃ q ∈ groups, s = kernelOf q.2) → ∃ q ∈ groups ++ [p], s = kernelOf q.2 := by
      rintro ⟨q, hq, heq⟩
      exact ⟨q, List.mem_append_left _ hq, heq⟩
    rcases enter_cases e₁ p.2 with ⟨k, -, heq⟩ | ⟨-, heq⟩
    · obtain rfl : e' = e₁ := by rw [hlast, heq]
      exact ⟨hkeep, fun m s hs => (hnew m s hs).imp_right hweaken⟩
    · have hstates : e'.states = e₁.states.push (kernelOf p.2) := by rw [hlast, heq]
      have hle : e.states.size ≤ e₁.states.size := by
        by_contra hlt
        have hnone := hkeep e₁.states.size (not_le.1 hlt)
        rw [Array.getElem?_eq_none le_rfl, Array.getElem?_eq_getElem (not_le.1 hlt)] at hnone
        cases hnone
      refine ⟨fun m hm => ?_, fun m s hs => ?_⟩
      · rw [hstates, Array.getElem?_push_lt (hm.trans_le hle), ← Array.getElem?_eq_getElem, hkeep m hm]
      · rw [hstates, Array.getElem?_push] at hs
        split_ifs at hs with hm
        · exact Or.inr ⟨p, by simp, (Option.some.inj hs).symm⟩
        · exact (hnew m s hs).imp_right hweaken

/-- Visiting a state keeps track of where the states come from. -/
lemma Traced.visit (h : e.Traced g n) {s : ItemSet} (hs : e.states[n]? = some s)
    (hvisit : g.visit e n s = .ok e') : e'.Traced g (n + 1) := by
  obtain ⟨xs, hxs, hvisit⟩ := bind_eq_ok.1 hvisit
  obtain ⟨t, ht, hvisit⟩ := bind_eq_ok.1 hvisit
  obtain ⟨groups, hgroups, hvisit⟩ := bind_eq_ok.1 hvisit
  obtain rfl : { s with nonterminals := some xs, index := some n } = t := by
    unfold ItemSet.setIndex at ht
    split_ifs at ht
    exact Except.ok.inj ht
  rcases hall : Exploration.enterAll _ groups with ⟨e₁, row⟩
  rw [hall] at hvisit
  obtain rfl := Except.ok.inj hvisit
  obtain ⟨hkeep, hnew⟩ := enterAll_states hall
  simp only [Array.size_setIfInBounds] at hkeep
  have hlt := (Array.getElem?_eq_some_iff.1 hs).1
  -- the state visited now leads to the states that are added
  set t : ItemSet := { s with nonterminals := some xs, index := some n } with ht
  have hself : e₁.states[n]? = some t := by
    rw [hkeep n hlt, Array.getElem?_setIfInBounds_self, if_pos hlt]
  -- the states that were there have the same items
  have hitems {m : Nat} {u : ItemSet} (hu : (e.states.setIfInBounds n t)[m]? = some u) :
      ∃ v, e.states[m]? = some v ∧ u.items = v.items := by
    rw [Array.getElem?_setIfInBounds] at hu
    split_ifs at hu with hnm
    · subst hnm
      obtain rfl := Option.some.inj hu
      exact ⟨s, hs, rfl⟩
    · exact ⟨u, hu, rfl⟩
  refine ⟨fun {u} hu => ?_, fun {m u} hm hu => ?_⟩
  · rw [hkeep 0 (by omega)] at hu
    obtain ⟨v, hv, heq⟩ := hitems hu
    exact heq.trans (h.first hv)
  · rcases hnew m u hu with hu | ⟨p, hp, rfl⟩
    · obtain ⟨v, hv, heq⟩ := hitems hu
      obtain ⟨k, w, hk, hw, xs', groups', x, cores, hxs', hw', hgroups', hmem, hv'⟩ := h.entered hm hv
      refine ⟨k, w, by omega, ?_, xs', groups', x, cores, hxs', hw', hgroups', hmem, heq.trans hv'⟩
      rw [hkeep k (by omega), Array.getElem?_setIfInBounds_ne (by omega), hw]
    · exact ⟨n, t, by omega, hself, xs, groups, p.1, p.2, hxs, rfl, hgroups, hp, rfl⟩

/-- Exploring keeps track of where the states come from. -/
lemma Traced.explore (h : e.Traced g n) {fuel : Nat} (hexplore : g.explore fuel n e = .ok e') :
    ∃ n', e'.Traced g n' := by
  induction fuel generalizing n e with
  | zero =>
    unfold Augmented.explore at hexplore
    cases hs : e.states[n]? with
    | none =>
      simp only [hs] at hexplore
      exact ⟨n, Except.ok.inj hexplore ▸ h⟩
    | some s =>
      simp only [hs] at hexplore
      cases hexplore
  | succ fuel ih =>
    unfold Augmented.explore at hexplore
    cases hs : e.states[n]? with
    | none =>
      simp only [hs] at hexplore
      exact ⟨n, Except.ok.inj hexplore ▸ h⟩
    | some s =>
      simp only [hs] at hexplore
      obtain ⟨e₁, hvisit, hrest⟩ := bind_eq_ok.1 hexplore
      exact ih (h.visit hs hvisit) hrest

/-- Before anything is visited there is only the first state. -/
lemma traced_start : start.Traced g 0 where
  first hs := by
    obtain rfl := Option.some.inj hs
    rfl
  entered hm hs := by
    have hlt : _ < 1 := (Array.getElem?_eq_some_iff.1 hs).1
    omega

end Exploration

namespace Augmented

variable {g : Augmented}

/-- Where the kernel of a state begins with a core, the cores that its marked symbol leads to begin with it. -/
lemma exists_eq_cons_of_moves {u : ItemSet} {c : Core} {x : Symbol} {rest : Body} {l : List Core}
    (hu : u.kernel.map Item.core = c :: l) (hm : g.Marks c x rest) {groups : List (Symbol × List Core)}
    (hmoves : g.moves u = .ok groups) {cores : List Core} (hmem : (x, cores) ∈ groups) :
    ∃ tail, cores = c.advance :: tail := by
  obtain ⟨marked, hmarked, heq⟩ := bind_eq_ok.1 hmoves
  obtain rfl := Except.ok.inj heq
  obtain ⟨y, -, heq⟩ := List.mem_map.1 hmem
  obtain ⟨rfl, rfl⟩ := Prod.mk.inj heq
  rw [hu, List.cons_append, mapM_eq_ok, List.forall₂_cons_left_iff] at hmarked
  obtain ⟨step, steps, hstep, -, rfl⟩ := hmarked
  obtain ⟨r, hr, hx⟩ := hm.getElem?
  have hfirst : step = some (y, c.advance) := by
    simpa [Core.marked?, Core.rule?, hr, hx, bind, Except.bind, eq_comm] using hstep
  exact ⟨_, by rw [hfirst, List.filterMap_cons, id, List.filter_cons_of_pos (by simp), List.map_cons]⟩

end Augmented

namespace Automaton

variable {g : Augmented} {a bare : Automaton}

/-- Where the initial symbol comes after no dot, the complete augmenting item stands before all the other items of
its state. -/
theorem exists_cores_eq_cons (wf : g.WellFormed) (hbare : g.automaton = .ok bare) (hinit : bare.AvoidsInit g)
    {m : Lookaheads} (hclose : (bare.withLookaheads m).close g = .ok a) {n : Nat} {t : ItemSet}
    (ht : a.states[n]? = some t) (hone : t.HasKernel ⟨0, 1⟩) :
    ∃ rest, t.items.map Item.core = ⟨0, 1⟩ :: rest := by
  obtain ⟨e, hexplore, heq⟩ := bind_eq_ok.1 hbare
  obtain ⟨_, htraced⟩ := Exploration.traced_start.explore hexplore
  obtain ⟨bare', hbare', hexplored, hitems⟩ := Augmented.exists_automaton_eq_ok wf
  obtain rfl := Except.ok.inj (hbare.symm.trans hbare')
  obtain rfl := Except.ok.inj heq
  obtain ⟨s, hs, ⟨suffix, hsuffix⟩, hkernel⟩ := hexplored.exists_of_close wf hitems hclose ht
  have hn : 0 < n := by
    refine Nat.pos_of_ne_zero fun hn => ?_
    have hzero := (hexplored.start ⟨0, 1⟩).1 ⟨s, hn ▸ hs, (hkernel _).1 hone⟩
    cases hzero
  obtain ⟨k, u, -, hu, xs, groups, x, cores, hxs, hnonterminals, hmoves, hmem, hcores⟩ := htraced.entered hn hs
  -- the item comes from the beginning of the augmenting rule, which only the first state reaches
  have hvalid : ∀ c, u.HasKernel c → g.Valid c := fun c hc => hexplored.valid ⟨u, hu, hc⟩
  obtain ⟨xs', hxs', hxsmem⟩ := Augmented.exists_closureNonterminals_eq_ok wf hvalid
  obtain rfl := Except.ok.inj (hxs.symm.trans hxs')
  obtain ⟨groups', hgroups', -, -, hiff⟩ := Augmented.exists_moves_eq_ok wf hvalid hnonterminals hxsmem
  obtain rfl := Except.ok.inj (hmoves.symm.trans hgroups')
  have hmoved : (⟨0, 1⟩ : Core) ∈ cores := by
    obtain ⟨i, hi, hi'⟩ := (hkernel _).1 hone
    exact Exploration.hasKernel_kernelOf.1 ⟨i, hcores ▸ hi, hi'⟩
  obtain ⟨⟨rule, dot⟩, rest, hd, hmarks, heq⟩ := (hiff x cores hmem _).1 hmoved
  obtain ⟨rfl, rfl⟩ : 0 = rule ∧ dot = 0 := by simpa [Core.advance] using heq
  rw [← kernelAt_eq hu] at hd
  obtain rfl := hexplored.eq_zero_of_reaches wf hinit hd
  -- the kernel of the first state is that core, so the moves begin with it
  have hfirst : u.kernel.map Item.core = [⟨0, 0⟩] := by
    rw [ItemSet.kernel, htraced.first hu]
    rfl
  obtain ⟨tail, rfl⟩ := Augmented.exists_eq_cons_of_moves hfirst hmarks hmoves hmem
  obtain ⟨more, hmore⟩ := Exploration.exists_kernelOf_cons (⟨0, 0⟩ : Core).advance tail
  exact ⟨more ++ suffix, by rw [← hsuffix, hcores, hmore]; rfl⟩

end Automaton

end Lalr
