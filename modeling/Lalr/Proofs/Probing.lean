import Lalr.Proofs.LeastClosure

/-!
# Closures with the placeholder

*Filling in* lookaheads means to replace the placeholder, wherever it is, by the members of a given set.  The items
that one item calls for, the insertion of items and with these a step of the closure commute with filling in, as long
as there is something to fill in: a symbol that begins a body is never the placeholder, and a set with the placeholder
does not become empty.  The computed closure then commutes with filling in (`Augmented.close_fill`), although not step
by step to the end.  Where the placeholder is replaced by lookaheads that are there already, the filled run is over
sooner, and the steps that the other run still takes add nothing to it (`settle_eq_map`).

In this sense the closure of a kernel item with the placeholder stands for its closures with all other lookaheads.  The
second half of `Augmented.probing_is_faithful` puts the closure of a set together from those of its single items.
-/

namespace Lalr

/-! ### Filling in lookaheads -/

namespace SymbolSet

/-- The set with the placeholder, if it is there, replaced by the members of another set. -/
def fill (s set : SymbolSet) : SymbolSet :=
  if Symbol.placeholder ∈ s then s.erase Symbol.placeholder ∪ set else s

variable {s t set : SymbolSet} {x : Symbol}

/-- Erasing a symbol leaves the others. -/
lemma mem_erase {y : Symbol} : x ∈ s.erase y ↔ x ∈ s ∧ x ≠ y := by
  rw [Std.ExtTreeSet.mem_erase, ne_eq, Std.compare_eq_iff_eq, and_comm, ne_comm]

/-- The members of a filled set are the other members and, if the placeholder was there, those filled in. -/
lemma mem_fill : x ∈ s.fill set ↔ x ∈ s ∧ x ≠ Symbol.placeholder ∨ Symbol.placeholder ∈ s ∧ x ∈ set := by
  unfold fill
  by_cases hs : Symbol.placeholder ∈ s
  · rw [if_pos hs, Std.ExtTreeSet.mem_union_iff, mem_erase]
    simp only [hs, true_and]
  · rw [if_neg hs]
    constructor
    · exact fun hx => Or.inl ⟨hx, fun heq => hs (heq ▸ hx)⟩
    · rintro (⟨hx, -⟩ | ⟨hx, -⟩)
      · exact hx
      · exact absurd hx hs

/-- A union is filled part by part. -/
lemma fill_union : (s ∪ t).fill set = s.fill set ∪ t.fill set := by
  refine Std.ExtTreeSet.ext_mem fun x => ?_
  simp only [mem_fill, Std.ExtTreeSet.mem_union_iff]
  tauto

/-- A set without the placeholder stays as it is. -/
lemma fill_eq_self (hs : Symbol.placeholder ∉ s) : s.fill set = s :=
  if_neg hs

/-- The placeholder alone gives what is filled in. -/
lemma fill_singleton : ({Symbol.placeholder} : SymbolSet).fill set = set := by
  refine Std.ExtTreeSet.ext_mem fun x => ?_
  rw [mem_fill, mem_singleton, mem_singleton]
  tauto

/-- Filling in something leaves no set empty that was not so before. -/
lemma isEmpty_fill (hset : ∃ x, x ∈ set) : (s.fill set).isEmpty = s.isEmpty := by
  rw [Bool.eq_iff_iff, Std.ExtTreeSet.isEmpty_iff, Std.ExtTreeSet.isEmpty_iff,
    Std.ExtTreeSet.eq_empty_iff_forall_not_mem, Std.ExtTreeSet.eq_empty_iff_forall_not_mem]
  obtain ⟨y, hy⟩ := hset
  constructor
  · intro h x hx
    by_cases heq : x = Symbol.placeholder
    · exact h y (mem_fill.2 (Or.inr ⟨heq ▸ hx, hy⟩))
    · exact h x (mem_fill.2 (Or.inl ⟨hx, heq⟩))
  · intro h x hx
    rcases mem_fill.1 hx with ⟨hx, -⟩ | ⟨hx, -⟩
    · exact h x hx
    · exact h _ hx

end SymbolSet

/-- The item with the placeholder replaced in its lookaheads. -/
def Item.fill (i : Item) (set : SymbolSet) : Item :=
  { i with lookaheads := i.lookaheads.fill set }

namespace ItemSet

/-- The item set with the placeholder replaced in the lookaheads of all items. -/
def fill (s : ItemSet) (set : SymbolSet) : ItemSet :=
  { s with items := s.items.map fun i => i.fill set }

variable {s : ItemSet} {set : SymbolSet} {c : Core}

/-- Filling in keeps the list of cores. -/
lemma map_core_fill : (s.fill set).items.map Item.core = s.items.map Item.core := by
  unfold fill
  rw [List.map_map]
  rfl

/-- Filling in keeps the cores. -/
lemma has_fill : (s.fill set).Has c ↔ s.Has c := by
  rw [has_iff_mem_map, has_iff_mem_map, map_core_fill]

/-- Filling in keeps cores distinct. -/
lemma distinct_fill (hs : s.Distinct) : (s.fill set).Distinct := by
  unfold Distinct
  rwa [map_core_fill]

/-- Extending lookaheads commutes with filling in. -/
lemma extend_fill {lookaheads : SymbolSet} :
    (s.fill set).extend c (lookaheads.fill set) = (s.extend c lookaheads).fill set := by
  unfold extend fill
  simp only [List.map_map, mk.injEq, and_true]
  refine List.map_congr_left fun i _ => ?_
  by_cases hc : i.core = c
  · simp [Item.fill, hc, SymbolSet.fill_union]
  · simp [Item.fill, hc]

/-- Insertion commutes with filling in. -/
lemma Distinct.insert_fill (hs : s.Distinct) (i : Item) :
    ((s.fill set).insert (i.fill set)).1 = (s.insert i).1.fill set := by
  by_cases hi : s.Has i.core
  · have hi' : (s.fill set).Has (i.fill set).core := has_fill.2 hi
    rw [hs.insert_of_has hi, (distinct_fill hs).insert_of_has hi']
    exact extend_fill
  · have hi' : ¬ (s.fill set).Has (i.fill set).core := fun h => hi (has_fill.1 h)
    rw [insert_of_not_has hi, insert_of_not_has hi', fill, fill, List.map_append]
    rfl

/-- Merging commutes with filling in. -/
lemma Distinct.merge_fill (hs : s.Distinct) (items : List Item) :
    ((s.fill set).merge (items.map fun i => i.fill set)).1 = (s.merge items).1.fill set := by
  induction items generalizing s with
  | nil => rfl
  | cons i items ih =>
    rw [List.map_cons, merge_cons, merge_cons, hs.insert_fill]
    exact ih (hs.insert i)

/-- A merge that leaves the set as it was reports no change. -/
lemma merge_unchanged_of_eq {items : List Item} (h : (s.merge items).1 = s) : (s.merge items).2 = false := by
  rw [← Bool.not_eq_true]
  intro hchanged
  have hlt := (s.weight_merge items).2 hchanged
  rw [h] at hlt
  exact lt_irrefl _ hlt

end ItemSet

namespace Augmented

variable {g : Augmented} {set : SymbolSet}

section

variable (wf : g.WellFormed)
include wf

/-- What is handed down commutes with filling in. -/
lemma handedDown_fill {rest : Body} {lookaheads : SymbolSet} :
    g.handedDown rest (lookaheads.fill set) = (g.handedDown rest lookaheads).fill set := by
  have hbegin : (g.analysis.firstOfAll rest).fill set = g.analysis.firstOfAll rest :=
    SymbolSet.fill_eq_self fun h => wf.ne_placeholder ((wf.mem_firstOfAll).1 h).isTerminal rfl
  unfold handedDown
  by_cases hnull : g.analysis.allNullable rest = true
  · rw [if_pos hnull, if_pos hnull, SymbolSet.fill_union, hbegin]
  · rw [if_neg hnull, if_neg hnull, hbegin]

/-- What an item calls for commutes with filling in something. -/
lemma expand_fill (hset : ∃ x, x ∈ set) {i : Item} (hi : g.Valid i.core) {items : List Item}
    (h : g.expand i = .ok items) : g.expand (i.fill set) = .ok (items.map fun j => j.fill set) := by
  obtain ⟨r, hr, -⟩ := hi
  cases hmark : r.rhs[i.core.dot]? with
  | none =>
    obtain rfl := Except.ok.inj (h.symm.trans (expand_eq_nil hr hmark))
    exact expand_eq_nil (i := i.fill set) hr hmark
  | some A =>
    have hm := marks_of_getElem? hr hmark
    rw [expand_eq_map wf hm] at h
    rw [expand_eq_map wf (i := i.fill set) hm, ← Except.ok.inj h, Item.fill, handedDown_fill wf,
      SymbolSet.isEmpty_fill hset]
    split
    · rfl
    · rw [List.map_map]
      rfl

/-- A step of the closure commutes with filling in something, and reports no change where the step does not. -/
lemma closeStep_fill (hset : ∃ x, x ∈ set) {s t : ItemSet} {changed : Bool} (hs : s.Distinct)
    (hvalid : ∀ c, s.Has c → g.Valid c) (h : g.closeStep s = .ok (t, changed)) :
    ∃ changed', g.closeStep (s.fill set) = .ok (t.fill set, changed') ∧
      (changed' = false → t.fill set = s.fill set) ∧ (changed = false → changed' = false) := by
  obtain ⟨added, hadded, heq⟩ := bind_eq_ok.1 h
  have hfilled : (s.fill set).items.mapM g.expand = .ok (added.map fun items => items.map fun j => j.fill set) :=
    mapM_map_eq_ok (fun i hi items hexpand => expand_fill wf hset (hvalid i.core ⟨i, hi, rfl⟩) hexpand) hadded
  have ht : (s.merge added.flatten).1 = t := congrArg Prod.fst (Except.ok.inj heq)
  have hmerge : ((s.fill set).merge (added.flatten.map fun i => i.fill set)).1 = (s.merge added.flatten).1.fill set :=
    hs.merge_fill added.flatten
  rw [ht, List.map_flatten] at hmerge
  refine ⟨_, by rw [closeStep, hfilled, ← hmerge]; rfl, fun h' => ?_, fun hsame => ?_⟩
  · rw [← hmerge, ItemSet.merge_eq_of_unchanged h']
  · have hflag : (s.merge added.flatten).2 = false := (congrArg Prod.snd (Except.ok.inj heq)).trans hsame
    have hst : t = s := ht ▸ ItemSet.merge_eq_of_unchanged hflag
    exact ItemSet.merge_unchanged_of_eq (hmerge.trans (hst ▸ rfl))

/-- Closing a set commutes with filling in something. -/
theorem close_fill (hset : ∃ x, x ∈ set) {s t : ItemSet} (hs : s.Distinct) (hvalid : ∀ c, s.Has c → g.Valid c)
    (h : g.close s = .ok t) : g.close (s.fill set) = .ok (t.fill set) := by
  obtain ⟨⟨u, count⟩, hsettle, heq⟩ := bind_eq_ok.1 h
  obtain ⟨t', ht', -⟩ := exists_close_eq_ok wf (ItemSet.distinct_fill hs) fun c hc => hvalid c (ItemSet.has_fill.1 hc)
  obtain ⟨⟨v, count'⟩, hsettle', heq'⟩ := bind_eq_ok.1 ht'
  have huv : v = u.fill set := by
    refine settle_eq_map (f := fun s => s.fill set) (P := Between g s) (fun a b changed ha hb => ?_) (.refl hs)
      hsettle hsettle'
    exact ⟨ha.closeStep wf hvalid hb, closeStep_fill wf hset ha.distinct (ha.valid hvalid) hb⟩
  subst huv
  rw [ht', ← Except.ok.inj heq, ← Except.ok.inj heq']
  rfl

end

/-! ### Closures of single items -/

/-- The closure of more cores with more lookaheads is larger. -/
lemma Closes.mono {K K' : Core → Prop} {L L' : Core → Symbol → Prop} (hK : ∀ c, K c → K' c)
    (hL : ∀ c x, L c x → L' c x) {c : Core} {x : Symbol} (h : g.Closes K L c x) : g.Closes K' L' c x := by
  induction h with
  | seed h => exact .seed (hL _ _ h)
  | begin h ho hx => exact .begin (hK _ h) ho hx
  | expand _ ho hx ih => exact .expand ih ho hx

/-- A lookahead in the closure of a set arises in the closure of one of its items. -/
lemma closes_iff_exists_mem {s : ItemSet} {c : Core} {x : Symbol} :
    g.Closes s.Has s.Looks c x ↔
      ∃ i ∈ s.items, g.Closes (ItemSet.ofList [i]).Has (ItemSet.ofList [i]).Looks c x := by
  constructor
  · intro h
    induction h with
    | seed h =>
      obtain ⟨i, hi, hc, hx⟩ := h
      exact ⟨i, hi, .seed ⟨i, List.mem_singleton_self i, hc, hx⟩⟩
    | begin h ho hx =>
      obtain ⟨i, hi, hc⟩ := h
      exact ⟨i, hi, .begin ⟨i, List.mem_singleton_self i, hc⟩ ho hx⟩
    | expand _ ho hx ih =>
      obtain ⟨i, hi, h⟩ := ih
      exact ⟨i, hi, .expand h ho hx⟩
  · rintro ⟨i, hi, h⟩
    refine h.mono ?_ ?_
    · rintro c ⟨j, hj, hc⟩
      exact ⟨i, hi, List.mem_singleton.1 hj ▸ hc⟩
    · rintro c x ⟨j, hj, hc, hx⟩
      obtain rfl := List.mem_singleton.1 hj
      exact ⟨j, hi, hc, hx⟩

/-- The closure of a single item. -/
lemma exists_close_singleton_eq_ok (wf : g.WellFormed) {i : Item} (hi : g.Valid i.core) :
    ∃ u, g.close (ItemSet.ofList [i]) = .ok u ∧
      (∀ c, u.Has c ↔ i.core = c ∨ ∃ x, g.Closes (ItemSet.ofList [i]).Has (ItemSet.ofList [i]).Looks c x) ∧
      ∀ c x, u.Looks c x ↔ g.Closes (ItemSet.ofList [i]).Has (ItemSet.ofList [i]).Looks c x := by
  have hcore (c : Core) : (ItemSet.ofList [i]).Has c ↔ i.core = c := by
    rw [ItemSet.has_ofList]
    simp
  obtain ⟨u, hu, -, -, hhas, hlooks⟩ := exists_close_eq_ok wf (ItemSet.distinct_ofList [i])
    fun c hc => (hcore c).1 hc ▸ hi
  exact ⟨u, hu, fun c => (hhas c).trans (or_congr_left (hcore c)), hlooks⟩

/-- The closure of a core with the placeholder turns into its closures with other lookaheads by filling these in. -/
lemma exists_close_fill (wf : g.WellFormed) {k : Core} (hk : g.Valid k) {lookaheads : SymbolSet}
    (hne : ∃ x, x ∈ lookaheads) :
    ∃ probe, g.close (ItemSet.ofList [⟨k, true, {Symbol.placeholder}⟩]) = .ok probe ∧
      g.close (ItemSet.ofList [⟨k, true, lookaheads⟩]) = .ok (probe.fill lookaheads) := by
  obtain ⟨probe, hprobe, -⟩ := exists_close_singleton_eq_ok wf (i := ⟨k, true, {Symbol.placeholder}⟩) hk
  have hvalid : ∀ c, (ItemSet.ofList [⟨k, true, {Symbol.placeholder}⟩]).Has c → g.Valid c := by
    intro c hc
    obtain ⟨i, hi, rfl⟩ := ItemSet.has_ofList.1 hc
    rwa [List.mem_singleton.1 hi]
  have hfill : (ItemSet.ofList [⟨k, true, {Symbol.placeholder}⟩]).fill lookaheads =
      ItemSet.ofList [⟨k, true, lookaheads⟩] :=
    congrArg (fun set => ItemSet.ofList [⟨k, true, set⟩]) SymbolSet.fill_singleton
  refine ⟨probe, hprobe, ?_⟩
  rw [← hfill]
  exact close_fill wf hne (ItemSet.distinct_ofList _) hvalid hprobe

section

variable {s t : ItemSet} (wf : g.WellFormed) (hs : s.Distinct) (hvalid : ∀ c, s.Has c → g.Valid c)
  (ht : g.close s = .ok t)
include wf hs hvalid ht

/-- The closure of a set has the cores that the closures of its items have. -/
lemma has_close_iff {c : Core} :
    t.Has c ↔ ∃ i ∈ s.items, ∃ u, g.close (ItemSet.ofList [i]) = .ok u ∧ u.Has c := by
  obtain ⟨-, -, hhas, -⟩ := close_eq_ok wf hs hvalid ht
  simp only [hhas, closes_iff_exists_mem (s := s)]
  constructor
  · rintro (⟨i, hi, hc⟩ | ⟨x, i, hi, hx⟩)
    · obtain ⟨u, hu, huhas, -⟩ := exists_close_singleton_eq_ok wf (hvalid i.core ⟨i, hi, rfl⟩)
      exact ⟨i, hi, u, hu, (huhas c).2 (Or.inl hc)⟩
    · obtain ⟨u, hu, huhas, -⟩ := exists_close_singleton_eq_ok wf (hvalid i.core ⟨i, hi, rfl⟩)
      exact ⟨i, hi, u, hu, (huhas c).2 (Or.inr ⟨x, hx⟩)⟩
  · rintro ⟨i, hi, u, hu, hc⟩
    obtain ⟨u', hu', huhas, -⟩ := exists_close_singleton_eq_ok wf (hvalid i.core ⟨i, hi, rfl⟩)
    obtain rfl := Except.ok.inj (hu.symm.trans hu')
    rcases (huhas c).1 hc with hc | ⟨x, hx⟩
    · exact Or.inl ⟨i, hi, hc⟩
    · exact Or.inr ⟨x, i, hi, hx⟩

/-- The closure of a set has the lookaheads that the closures of its items have. -/
lemma looks_close_iff {c : Core} {x : Symbol} :
    t.Looks c x ↔ ∃ i ∈ s.items, ∃ u, g.close (ItemSet.ofList [i]) = .ok u ∧ u.Looks c x := by
  obtain ⟨-, -, -, hlooks⟩ := close_eq_ok wf hs hvalid ht
  rw [hlooks, closes_iff_exists_mem]
  refine exists_congr fun i => and_congr_right fun hi => ?_
  obtain ⟨u, hu, -, hulooks⟩ := exists_close_singleton_eq_ok wf (hvalid i.core ⟨i, hi, rfl⟩)
  rw [← hulooks]
  constructor
  · exact fun hx => ⟨u, hu, hx⟩
  · rintro ⟨u', hu', hx⟩
    obtain rfl := Except.ok.inj (hu.symm.trans hu')
    exact hx

end

/-- The closure of a core with any lookaheads comes from its closure with the placeholder by filling these in.  The
closure of a set of items has the cores and the lookaheads that the closures of its single items have. -/
theorem probing_is_faithful {grammar : Grammar} (haugment : grammar.augment = .ok g) :
    (∀ k, g.Valid k → ∀ lookaheads : SymbolSet, (∃ x, x ∈ lookaheads) → ∃ probe t,
      g.close (ItemSet.ofList [⟨k, true, {Symbol.placeholder}⟩]) = .ok probe ∧
      g.close (ItemSet.ofList [⟨k, true, lookaheads⟩]) = .ok t ∧
      t.items = probe.items.map fun i => i.fill lookaheads) ∧
    ∀ s : ItemSet, s.Distinct → (∀ c, s.Has c → g.Valid c) → ∃ t, g.close s = .ok t ∧
      (∀ i ∈ s.items, ∃ u, g.close (ItemSet.ofList [i]) = .ok u) ∧
      (∀ c, t.Has c ↔ ∃ i ∈ s.items, ∃ u, g.close (ItemSet.ofList [i]) = .ok u ∧ u.Has c) ∧
      ∀ c x, t.Looks c x ↔ ∃ i ∈ s.items, ∃ u, g.close (ItemSet.ofList [i]) = .ok u ∧ u.Looks c x := by
  have wf := Grammar.wellFormed_of_augment haugment
  constructor
  · intro k hk lookaheads hne
    obtain ⟨probe, hprobe, hfilled⟩ := exists_close_fill wf hk hne
    exact ⟨probe, _, hprobe, hfilled, rfl⟩
  · intro s hs hvalid
    obtain ⟨t, ht, -⟩ := exists_close_eq_ok wf hs hvalid
    refine ⟨t, ht, fun i hi => ?_, fun c => has_close_iff wf hs hvalid ht, fun c x => looks_close_iff wf hs hvalid ht⟩
    obtain ⟨u, hu, -⟩ := exists_close_singleton_eq_ok wf (hvalid i.core ⟨i, hi, rfl⟩)
    exact ⟨u, hu⟩

/-- Repetitions of a token, by left recursion: `S ::= S c` and the empty rule. -/
def repeated : Grammar :=
  let builder : Builder := { unknown := Symbol.unknown, init := ⟨0⟩, start := ⟨1⟩ }
  ((builder.add ⟨1⟩ [⟨1⟩, ⟨10⟩]).add ⟨1⟩ []).toGrammar

/-- Before a repetition, the probe finds the placeholder and the token itself behind the rules of `S`.  With the end of
input for the placeholder this is the closure of the first item, and it stays so in a set with a second item. -/
theorem probing_is_faithful_repeated :
    ∃ g probe t u, repeated.augment = .ok g ∧
      g.close (ItemSet.ofList [⟨⟨0, 0⟩, true, {Symbol.placeholder}⟩]) = .ok probe ∧
      probe.items = [⟨⟨0, 0⟩, true, {Symbol.placeholder}⟩, ⟨⟨1, 0⟩, false, {Symbol.placeholder, ⟨10⟩}⟩,
        ⟨⟨2, 0⟩, false, {Symbol.placeholder, ⟨10⟩}⟩] ∧
      g.close (ItemSet.ofList [⟨⟨0, 0⟩, true, {Symbol.eof}⟩]) = .ok t ∧
      t.items = [⟨⟨0, 0⟩, true, {Symbol.eof}⟩, ⟨⟨1, 0⟩, false, {Symbol.eof, ⟨10⟩}⟩,
        ⟨⟨2, 0⟩, false, {Symbol.eof, ⟨10⟩}⟩] ∧
      g.close { items := [⟨⟨0, 0⟩, true, {Symbol.eof}⟩, ⟨⟨1, 1⟩, true, {Symbol.eof}⟩] } = .ok u ∧
      u.Looks ⟨2, 0⟩ ⟨10⟩ := by
  have hrun : (do
      let g ← repeated.augment.toOption
      let probe ← (g.close (ItemSet.ofList [⟨⟨0, 0⟩, true, {Symbol.placeholder}⟩])).toOption
      some (g.rules[0]?, g.rules[1]?, probe.items)) =
      some (some ⟨0, ⟨0⟩, [⟨1⟩]⟩, some ⟨1, ⟨1⟩, [⟨1⟩, ⟨10⟩]⟩,
        [⟨⟨0, 0⟩, true, {Symbol.placeholder}⟩, ⟨⟨1, 0⟩, false, {Symbol.placeholder, ⟨10⟩}⟩,
          ⟨⟨2, 0⟩, false, {Symbol.placeholder, ⟨10⟩}⟩]) := by decide +kernel
  obtain ⟨g, hg, hrun⟩ := Option.bind_eq_some_iff.1 hrun
  obtain ⟨probe, hprobe, hrun⟩ := Option.bind_eq_some_iff.1 hrun
  obtain ⟨hfirst, hrun⟩ := Prod.mk.inj (Option.some.inj hrun)
  obtain ⟨hsecond, hitems⟩ := Prod.mk.inj hrun
  rw [toOption_eq_some_iff] at hg hprobe
  have hdistinct : ItemSet.Distinct { items := [⟨⟨0, 0⟩, true, {Symbol.eof}⟩, ⟨⟨1, 1⟩, true, {Symbol.eof}⟩] } := by
    unfold ItemSet.Distinct
    decide
  have hvalid : ∀ c, ItemSet.Has { items := [⟨⟨0, 0⟩, true, {Symbol.eof}⟩, ⟨⟨1, 1⟩, true, {Symbol.eof}⟩] } c →
      g.Valid c := by
    rintro c ⟨i, hi, rfl⟩
    rcases List.mem_pair.1 hi with rfl | rfl
    · exact ⟨_, hfirst, by decide⟩
    · exact ⟨_, hsecond, by decide⟩
  obtain ⟨hfill, hunion⟩ := probing_is_faithful hg
  obtain ⟨probe', t, hprobe', ht, heq⟩ :=
    hfill ⟨0, 0⟩ ⟨_, hfirst, by decide⟩ {Symbol.eof} ⟨_, SymbolSet.mem_singleton.2 rfl⟩
  obtain rfl := Except.ok.inj (hprobe.symm.trans hprobe')
  obtain ⟨u, hu, -, -, hlooks⟩ := hunion _ hdistinct hvalid
  have hfilled : t.items = [⟨⟨0, 0⟩, true, {Symbol.eof}⟩, ⟨⟨1, 0⟩, false, {Symbol.eof, ⟨10⟩}⟩,
      ⟨⟨2, 0⟩, false, {Symbol.eof, ⟨10⟩}⟩] := by
    rw [heq, hitems]
    decide +kernel
  have hmem : t.Looks ⟨2, 0⟩ ⟨10⟩ := by
    unfold ItemSet.Looks
    rw [hfilled]
    decide +kernel
  exact ⟨g, probe, t, u, hg, hprobe, hitems, ht, hfilled, hu, (hlooks _ _).2 ⟨_, List.mem_cons_self, t, ht, hmem⟩⟩

end Augmented

end Lalr
