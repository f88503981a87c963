import Lalr.ItemSet.Indexed
import Lalr.Proofs.Exploration

/-!
# The history of an item set

An item set with an index comes about by calls: items are inserted, singly or as a list, lookaheads are added to an item
that is there, and the set is numbered.  Along all such calls the index stays exact (`IndexedItemSet.Exact`), that is, it
leads from the cores of the items, and from nothing else, to their places.  No call leaves the list, therefore, and each
of them does to the items what it does without an index.

What the set holds in the end is what its history has put there (`IndexedItemSet.Keeps`).  The cores stand in the order
of their first insertion, and each item is in the kernel if it was inserted for the kernel at first.  Its lookaheads are
all those that were ever inserted or added under its core.  A call reports a change exactly when it brings an item or a
lookahead that the set lacks.

The identity of a state is the sorted list of the cores of its kernel.  As the cores are distinct it is strictly
ascending, and so it depends on nothing but which cores have been inserted for the kernel.
-/

namespace Lalr

/-! ### Cores and single items -/

/-- Cores are in ascending order when their rules are, or their dots in the same rule. -/
lemma Core.compare_eq_lt {c d : Core} :
    compare c d = .lt ↔ c.rule < d.rule ∨ c.rule = d.rule ∧ c.dot < d.dot := by
  have hlex : compare c d = (compare c.rule d.rule).then (compare c.dot d.dot) := rfl
  rw [hlex, Ordering.then_eq_lt, Nat.compare_eq_lt, Nat.compare_eq_eq, Nat.compare_eq_lt]

/-- An item takes in the symbols that are added, and has more lookaheads than before if one of them is new. -/
lemma Item.extend_eq (i : Item) (symbols : List Symbol) :
    i.extend symbols = ({ i with lookaheads := i.lookaheads ∪ .ofList symbols },
      !SymbolSet.subset (.ofList symbols) i.lookaheads) := by
  have hunion : i.lookaheads.insertMany symbols = i.lookaheads ∪ .ofList symbols := by
    refine Std.ExtTreeSet.ext_mem fun x => ?_
    rw [Std.ExtTreeSet.mem_insertMany_list, Std.ExtTreeSet.mem_union_iff, Std.ExtTreeSet.mem_ofList]
  have hgrown : decide (i.lookaheads.size < (i.lookaheads ∪ .ofList symbols).size) =
      !SymbolSet.subset (.ofList symbols) i.lookaheads := by
    by_cases hsub : SymbolSet.subset (.ofList symbols) i.lookaheads = true
    · rw [SymbolSet.union_eq_self hsub, hsub]
      simp
    · rw [decide_eq_true (SymbolSet.size_lt_size_union hsub), Bool.eq_false_of_not_eq_true hsub, Bool.not_false]
  rw [Item.extend, hunion, hgrown]

namespace ItemSet

variable {s : ItemSet} {i : Item} {c : Core} {given : List Item}

/-- Adding lookaheads to an item of the set extends it, and reports whether one of them is new. -/
lemma Distinct.addLookaheads?_eq (h : s.Distinct) (hi : i ∈ s.items) (set : SymbolSet) :
    s.addLookaheads? i.core set = some (s.extend i.core set, !SymbolSet.subset set i.lookaheads) := by
  rw [addLookaheads?, h.get?_eq hi, Option.map_some]
  by_cases hsub : SymbolSet.subset set i.lookaheads = true
  · rw [if_pos hsub, hsub, h.extend_eq_self hi (SymbolSet.subset_iff.1 hsub), Bool.not_true]
  · rw [if_neg hsub, Bool.eq_false_of_not_eq_true hsub, Bool.not_false]

/-! ### What insertions report -/

/-- The set does not have the core of the item, or it does not have one of its lookaheads. -/
def Lacks (s : ItemSet) (i : Item) : Prop :=
  ¬ s.Has i.core ∨ ∃ x ∈ i.lookaheads, ¬ s.Looks i.core x

/-- A merge reports a change exactly when the set lacks one of the items. -/
lemma Distinct.merge_changed_iff (h : s.Distinct) (items : List Item) :
    (s.merge items).2 = true ↔ ∃ i ∈ items, s.Lacks i := by
  constructor
  · intro hchanged
    by_contra hnone
    have heq : s.merge items = (s, false) := by
      refine h.merge_eq_self fun i hi => ?_
      have hi : ¬ s.Lacks i := fun hlacks => hnone ⟨i, hi, hlacks⟩
      simp only [Lacks, not_or, not_not, not_exists, not_and] at hi
      obtain ⟨⟨j, hj, hcore⟩, hlooks⟩ := hi
      exact ⟨j, hj, hcore, fun x hx => h.mem_of_looks hj (hcore ▸ hlooks x hx)⟩
    rw [heq] at hchanged
    cases hchanged
  · rintro ⟨i, hi, hlacks⟩
    by_contra hunchanged
    have heq := merge_eq_of_unchanged (Bool.eq_false_of_not_eq_true hunchanged)
    rcases hlacks with hnew | ⟨x, hx, hnew⟩
    · exact hnew (heq ▸ has_merge.2 (Or.inr ⟨i, hi, rfl⟩))
    · exact hnew (heq ▸ looks_merge.2 (Or.inr ⟨i, hi, rfl, hx⟩))

/-- An insertion reports a change exactly when the set lacks the item. -/
lemma Distinct.insert_changed_iff (h : s.Distinct) (i : Item) : (s.insert i).2 = true ↔ s.Lacks i := by
  simpa [merge_cons] using h.merge_changed_iff [i]

/-! ### The order of insertion -/

/-- The cores of the set are those of the given items in order of first occurrence, and each item is in the kernel if
the first of the given items with its core is. -/
structure Lists (s : ItemSet) (given : List Item) : Prop where
  cores : s.items.map Item.core = (given.map Item.core).eraseDups
  flags : ∀ i ∈ s.items, (given.find? fun j => j.core == i.core).map Item.isKernel = some i.isKernel

/-- A set that lists items has no core twice. -/
lemma Lists.distinct (h : s.Lists given) : s.Distinct := by
  unfold Distinct
  rw [h.cores]
  exact nodup_eraseDups _

/-- A set that lists items has their cores. -/
lemma Lists.has_iff (h : s.Lists given) : s.Has c ↔ c ∈ given.map Item.core := by
  rw [has_iff_mem_map, h.cores, List.mem_eraseDups]

/-- Where all the given items are in the kernel, so are the items of the set. -/
lemma Lists.hasKernel_iff (h : s.Lists given) (hall : ∀ i ∈ given, i.isKernel = true) :
    s.HasKernel c ↔ c ∈ given.map Item.core := by
  rw [← h.has_iff]
  refine ⟨HasKernel.has, ?_⟩
  rintro ⟨i, hi, hc⟩
  obtain ⟨j, hj, hflag⟩ := Option.map_eq_some_iff.1 (h.flags i hi)
  exact ⟨i, hi, hflag ▸ hall j (List.mem_of_find?_eq_some hj), hc⟩

/-- Extending lookaheads does not change what is listed. -/
lemma Lists.extend (h : s.Lists given) (c : Core) (set : SymbolSet) : (s.extend c set).Lists given where
  cores := (s.map_core_extend c set).trans h.cores
  flags i hi := by
    obtain ⟨j, hj, rfl⟩ := List.mem_map.1 hi
    have hflag := h.flags j hj
    by_cases hc : j.core = c
    · rwa [if_pos hc]
    · rwa [if_neg hc]

/-- An insertion lists one item more. -/
lemma Lists.insert (h : s.Lists given) (i : Item) : (s.insert i).1.Lists (given ++ [i]) := by
  have hcores : ((given ++ [i]).map Item.core).eraseDups =
      if i.core ∈ given.map Item.core then s.items.map Item.core else s.items.map Item.core ++ [i.core] := by
    rw [List.map_append, List.map_singleton, eraseDups_concat, h.cores]
  -- the first item with a core that is there does not change
  have hflags : ∀ j ∈ s.items, ((given ++ [i]).find? fun k => k.core == j.core).map Item.isKernel =
      some j.isKernel := by
    intro j hj
    obtain ⟨k, hk, hflag⟩ := Option.map_eq_some_iff.1 (h.flags j hj)
    rw [List.find?_append, hk, Option.some_or, Option.map_some, hflag]
  by_cases hi : s.Has i.core
  · rw [h.distinct.insert_of_has hi]
    exact Lists.extend ⟨by rw [hcores, if_pos (h.has_iff.1 hi)], hflags⟩ i.core i.lookaheads
  · rw [insert_of_not_has hi]
    refine ⟨by rw [hcores, if_neg (mt h.has_iff.2 hi), List.map_append, List.map_singleton], fun j hj => ?_⟩
    rcases List.mem_append.1 hj with hj | hj
    · exact hflags j hj
    · obtain rfl := List.mem_singleton.1 hj
      have hnone : (given.find? fun k => k.core == j.core) = none := by
        rw [List.find?_eq_none]
        exact fun k hk hcore => hi (h.has_iff.2 (List.mem_map.2 ⟨k, hk, beq_iff_eq.1 hcore⟩))
      rw [List.find?_append, hnone, Option.none_or]
      simp

/-- A merge lists more items. -/
lemma Lists.merge (h : s.Lists given) (items : List Item) : (s.merge items).1.Lists (given ++ items) := by
  induction items generalizing s given with
  | nil => rwa [merge_nil, List.append_nil]
  | cons i items ih =>
    rw [merge_cons, List.append_cons]
    exact ih (h.insert i)

end ItemSet

namespace IndexedItemSet

variable {s t : IndexedItemSet} {i : Item} {c : Core} {n : Nat}

/-! ### The index -/

/-- The index leads from exactly the cores of the items to their places. -/
def Exact (s : IndexedItemSet) : Prop :=
  ∀ (c : Core) (n : Nat), s.places[c]? = some n ↔ (s.items.map Item.core)[n]? = some c

/-- With an exact index no core is there twice, as it would have two places. -/
lemma Exact.distinct (h : s.Exact) : s.Distinct := by
  unfold ItemSet.Distinct
  rw [List.nodup_iff_getElem?_ne_getElem?]
  intro m n hlt hn heq
  have hcore := List.getElem?_eq_getElem hn
  have hm := (h _ m).2 (heq.trans hcore)
  rw [(h _ n).2 hcore] at hm
  exact hlt.ne' (Option.some.inj hm)

/-- An exact index leads from the core of an item to its place. -/
lemma Exact.places_eq (h : s.Exact) (hi : s.items[n]? = some i) : s.places[i.core]? = some n :=
  (h i.core n).2 (by rw [List.getElem?_map, hi, Option.map_some])

/-- An exact index leads from a core to the place of its item, or the set does not have the core. -/
lemma Exact.cases (h : s.Exact) (c : Core) :
    (∃ n i, s.places[c]? = some n ∧ s.items[n]? = some i ∧ i.core = c) ∨ s.places[c]? = none ∧ ¬ s.Has c := by
  cases hn : s.places[c]? with
  | some n =>
    have hcore := (h c n).1 hn
    rw [List.getElem?_map, Option.map_eq_some_iff] at hcore
    obtain ⟨i, hi, hc⟩ := hcore
    exact Or.inl ⟨n, i, rfl, hi, hc⟩
  | none =>
    refine Or.inr ⟨rfl, fun hhas => ?_⟩
    obtain ⟨n, hcore⟩ := List.mem_iff_getElem?.1 (ItemSet.has_iff_mem_map.1 hhas)
    rw [(h c n).2 hcore] at hn
    cases hn

/-- An index stays exact when the cores stay in their places. -/
lemma Exact.of_map_core_eq (h : s.Exact) (hplaces : t.places = s.places)
    (hcores : t.items.map Item.core = s.items.map Item.core) : t.Exact := by
  intro c n
  rw [hplaces, hcores]
  exact h c n

/-- An index stays exact when a new item is entered with the place at the end. -/
lemma Exact.concat (h : s.Exact) (hi : ¬ s.Has i.core) :
    Exact { s with items := s.items ++ [i], places := s.places.insert i.core s.items.length } := by
  intro c n
  simp only [Std.ExtTreeMap.getElem?_insert, Std.compare_eq_iff_eq, List.map_append, List.map_singleton]
  rw [ItemSet.has_iff_mem_map] at hi
  by_cases hc : i.core = c
  · subst hc
    rw [if_pos rfl, Option.some.injEq, List.getElem?_append, List.length_map]
    split
    · have hne : (s.items.map Item.core)[n]? ≠ some i.core := fun heq => hi (List.mem_of_getElem? heq)
      simp only [hne, iff_false]
      omega
    · rw [List.getElem?_singleton]
      split <;> simp <;> omega
  · rw [if_neg hc, h c n, List.getElem?_append]
    split
    · rfl
    · have hnone : (s.items.map Item.core)[n]? = none := List.getElem?_eq_none (by omega)
      rw [hnone, List.getElem?_singleton]
      split <;> simp [hc]

/-- The empty set has an exact index. -/
lemma exact_empty : Exact {} := by
  intro c n
  simp

/-! ### Calls with an exact index -/

/-- With an exact index, the item at a place is the only one with its core. -/
lemma Exact.set_eq_extend (h : s.Exact) (hi : s.items[n]? = some i) (set : SymbolSet) :
    s.items.set n { i with lookaheads := i.lookaheads ∪ set } = (s.toItemSet.extend i.core set).items := by
  refine List.ext_getElem? fun m => ?_
  rw [List.getElem?_set, ItemSet.extend, List.getElem?_map]
  by_cases hmn : n = m
  · subst hmn
    rw [if_pos rfl, if_pos (List.getElem?_eq_some_iff.1 hi).1, hi, Option.map_some, if_pos rfl]
  · rw [if_neg hmn]
    cases hk : s.items[m]? with
    | none => rfl
    | some k =>
      have hne : k.core ≠ i.core := by
        intro hcore
        have hm := h.places_eq hk
        rw [hcore, h.places_eq hi] at hm
        exact hmn (Option.some.inj hm)
      rw [Option.map_some, if_neg hne]

/-- Adding lookaheads to the item at a place does what it does without an index. -/
lemma Exact.exists_extendAt_eq_ok (h : s.Exact) (hi : s.items[n]? = some i) (symbols : List Symbol) :
    ∃ t, s.extendAt n symbols = .ok (t, !SymbolSet.subset (.ofList symbols) i.lookaheads) ∧
      t.toItemSet = s.toItemSet.extend i.core (.ofList symbols) ∧ t.Exact := by
  have heq : s.extendAt n symbols =
      .ok ({ s with toItemSet := s.toItemSet.extend i.core (.ofList symbols) },
        !SymbolSet.subset (.ofList symbols) i.lookaheads) := by
    simp only [extendAt, itemAt, hi, Item.extend_eq, bind, Except.bind, h.set_eq_extend hi]
    rfl
  exact ⟨_, heq, rfl, h.of_map_core_eq rfl (s.toItemSet.map_core_extend _ _)⟩

/-- The item under a core is found by the index as it is found by a search. -/
lemma Exact.get?_eq (h : s.Exact) (c : Core) : s.get? c = .ok (s.toItemSet.get? c) := by
  unfold get?
  rcases h.cases c with ⟨n, i, hn, hi, rfl⟩ | ⟨hn, hhas⟩
  · rw [hn, h.distinct.get?_eq (List.mem_of_getElem? hi)]
    simp only [itemAt, hi]
    rfl
  · rw [hn, ItemSet.get?_eq_none.2 hhas]

/-- Adding lookaheads to an item that is there does what it does without an index. -/
lemma Exact.exists_addLookaheads?_eq_ok (h : s.Exact) (hi : s.items[n]? = some i) (symbols : List Symbol) :
    ∃ t changed, s.extendAt n symbols = .ok (t, changed) ∧
      s.addLookaheads? i.core symbols = .ok (some (t, changed)) ∧
      s.toItemSet.addLookaheads? i.core (.ofList symbols) = some (t.toItemSet, changed) ∧
      (changed = true ↔ ∃ x ∈ symbols, x ∉ i.lookaheads) := by
  obtain ⟨t, ht, hset, -⟩ := h.exists_extendAt_eq_ok hi symbols
  refine ⟨t, _, ht, ?_, ?_, ?_⟩
  · rw [addLookaheads?, h.places_eq hi]
    simp only [ht]
    rfl
  · rw [h.distinct.addLookaheads?_eq (List.mem_of_getElem? hi), hset]
  · rw [Bool.not_eq_true', ← Bool.not_eq_true, SymbolSet.subset_iff]
    simp [Std.ExtTreeSet.mem_ofList]

/-- Under a core that the set does not have no lookaheads are added. -/
lemma Exact.addLookaheads?_eq_none (h : s.Exact) (hc : ¬ s.Has c) (symbols : List Symbol) :
    s.addLookaheads? c symbols = .ok none := by
  rcases h.cases c with ⟨n, i, -, hi, hcore⟩ | ⟨hn, -⟩
  · exact absurd ⟨i, List.mem_of_getElem? hi, hcore⟩ hc
  · rw [addLookaheads?, hn]

/-- An insertion does what it does without an index. -/
lemma Exact.exists_insert_eq_ok (h : s.Exact) (i : Item) :
    ∃ t, s.insert i = .ok (t, (s.toItemSet.insert i).2) ∧ t.toItemSet = (s.toItemSet.insert i).1 ∧ t.Exact := by
  unfold insert ItemSet.insert
  rcases h.cases i.core with ⟨n, j, hn, hj, hcore⟩ | ⟨hn, hhas⟩
  · obtain ⟨t, ht, hset, hexact⟩ := h.exists_extendAt_eq_ok hj i.lookaheads.toList
    have hadd := h.distinct.addLookaheads?_eq (List.mem_of_getElem? hj) i.lookaheads
    rw [hcore] at hadd
    rw [SymbolSet.ofList_toList, hcore] at hset
    rw [SymbolSet.ofList_toList] at ht
    simp only [hn, hadd]
    exact ⟨t, ht, hset, hexact⟩
  · simp only [hn, ItemSet.addLookaheads?, ItemSet.get?_eq_none.2 hhas]
    exact ⟨_, rfl, rfl, h.concat hhas⟩

/-- A merge does what it does without an index. -/
lemma Exact.exists_merge_eq_ok (h : s.Exact) (items : List Item) :
    ∃ t, s.merge items = .ok (t, (s.toItemSet.merge items).2) ∧ t.toItemSet = (s.toItemSet.merge items).1 ∧
      t.Exact := by
  -- the report so far is kept beside the set
  suffices hfold : ∀ changed, ∃ t,
      items.foldlM insertNext (s, changed) = .ok (t, changed || (s.toItemSet.merge items).2) ∧
      t.toItemSet = (s.toItemSet.merge items).1 ∧ t.Exact from hfold false
  induction items generalizing s with
  | nil => exact fun changed => ⟨s, by simp [pure, Except.pure], rfl, h⟩
  | cons i items ih =>
    intro changed
    obtain ⟨u, hu, huset, huexact⟩ := h.exists_insert_eq_ok i
    obtain ⟨t, ht, htset, htexact⟩ := ih huexact (changed || (s.toItemSet.insert i).2)
    rw [huset] at ht htset
    refine ⟨t, ?_, by rw [htset, ItemSet.merge_cons], htexact⟩
    rw [List.foldlM_cons, insertNext, hu, ItemSet.merge_cons, ← Bool.or_assoc]
    exact ht

/-- The set of a list of items is built, and with its index it is the set that is built without one. -/
lemma exists_ofList_eq_ok (items : List Item) :
    ∃ s, ofList items = .ok s ∧ s.toItemSet = ItemSet.ofList items ∧ s.Exact := by
  obtain ⟨s, hs, hset, hexact⟩ := exact_empty.exists_merge_eq_ok items
  exact ⟨s, by rw [ofList, hs]; rfl, hset, hexact⟩

/-- A set is numbered as it is without an index. -/
lemma setIndex_eq_ok : s.setIndex n = .ok t ↔
    s.toItemSet.setIndex n = .ok t.toItemSet ∧ t.places = s.places := by
  unfold setIndex
  rw [bind_eq_ok]
  constructor
  · rintro ⟨u, hu, heq⟩
    obtain rfl := Except.ok.inj heq
    exact ⟨hu, rfl⟩
  · rintro ⟨hset, hplaces⟩
    refine ⟨_, hset, ?_⟩
    rw [← hplaces]

/-! ### The identity of a state -/

/-- Where no core is there twice, sorting the cores of the kernel comes to listing them once each in ascending order. -/
lemma kernelKey_eq (h : s.Distinct) : s.kernelKey = s.toItemSet.kernelKey := by
  have htotal (c d : Core) : ((compare c d).isLE || (compare d c).isLE) = true := by
    have hswap : compare d c = (compare c d).swap := Std.OrientedCmp.eq_swap
    rw [hswap]
    cases compare c d <;> rfl
  have hsorted : s.kernelKey.Pairwise fun c d => (compare c d).isLE = true :=
    List.pairwise_mergeSort (fun _ _ _ => Std.TransCmp.isLE_trans) htotal _
  have hkey : s.toItemSet.kernelKey.Pairwise fun c d => compare c d = .lt := Std.ExtTreeSet.ordered_toList
  have hnodup : (s.kernel.map Item.core).Nodup := h.sublist (List.filter_sublist.map _)
  have hperm : s.toItemSet.kernelKey.Perm (s.kernel.map Item.core) := by
    refine (List.perm_ext_iff_of_nodup (hkey.imp ?_) hnodup).2 fun c => ?_
    · rintro c _ hlt rfl
      rw [Std.ReflOrd.compare_self] at hlt
      cases hlt
    · rw [ItemSet.mem_kernelKey, ItemSet.mem_kernel_map]
  refine List.Perm.eq_of_pairwise (fun c d _ _ hle hge => ?_) hsorted (hkey.imp fun hlt => ?_)
    ((List.mergeSort_perm _ _).trans hperm.symm)
  · exact Std.LawfulEqOrd.eq_of_compare (Std.OrientedCmp.isLE_antisymm hle hge)
  · rw [hlt]
    rfl

/-! ### Histories -/

/-- A call that may change a set. -/
inductive Call where
  /-- An item is inserted. -/
  | insert (i : Item)
  /-- Items are inserted one after the other. -/
  | merge (items : List Item)
  /-- Lookaheads are added to the item with this core. -/
  | addLookaheads (c : Core) (symbols : List Symbol)
  /-- The set is numbered. -/
  | setIndex (n : Nat)

/-- The items that a call inserts. -/
def Call.items : Call → List Item
  | insert i => [i]
  | merge items => items
  | addLookaheads _ _ => []
  | setIndex _ => []

/-- A call on the first set comes to an end and leaves the second one.  Lookaheads are added to an item that the first
set has. -/
inductive Makes (s : IndexedItemSet) : Call → IndexedItemSet → Prop where
  | insert {i : Item} {t : IndexedItemSet} {changed : Bool} (h : s.insert i = .ok (t, changed)) :
      Makes s (.insert i) t
  | merge {items : List Item} {t : IndexedItemSet} {changed : Bool} (h : s.merge items = .ok (t, changed)) :
      Makes s (.merge items) t
  | addLookaheads {n : Nat} {i : Item} {c : Core} {symbols : List Symbol} {t : IndexedItemSet} {changed : Bool}
      (hi : s.items[n]? = some i) (hc : i.core = c) (h : s.extendAt n symbols = .ok (t, changed)) :
      Makes s (.addLookaheads c symbols) t
  | setIndex {n : Nat} {t : IndexedItemSet} (h : s.setIndex n = .ok t) : Makes s (.setIndex n) t

/-- The set is reached from that of the given items by calls one after the other. -/
inductive Reached (items : List Item) : List Call → IndexedItemSet → Prop where
  | new {s : IndexedItemSet} (h : ofList items = .ok s) : Reached items [] s
  | concat {calls : List Call} {call : Call} {s t : IndexedItemSet} (h : Reached items calls s)
      (hcall : s.Makes call t) : Reached items (calls ++ [call]) t

/-- All the items that have been inserted, the given ones first. -/
def inserted (items : List Item) (calls : List Call) : List Item :=
  items ++ calls.flatMap Call.items

/-- The lookahead has been inserted or added under the core. -/
def Given (items : List Item) (calls : List Call) (c : Core) (x : Symbol) : Prop :=
  (∃ i ∈ inserted items calls, i.core = c ∧ x ∈ i.lookaheads) ∨
    ∃ symbols, .addLookaheads c symbols ∈ calls ∧ x ∈ symbols

/-- The set holds what its history has put there, and its index is exact. -/
structure Keeps (s : IndexedItemSet) (items : List Item) (calls : List Call) : Prop where
  exact : s.Exact
  lists : s.Lists (inserted items calls)
  looks : ∀ c x, s.Looks c x ↔ Given items calls c x
  index : ∀ n, s.index = some n ↔ .setIndex n ∈ calls

variable {items : List Item} {calls : List Call} {call : Call}

/-- A further call inserts its items after the others. -/
lemma inserted_concat (items : List Item) (calls : List Call) (call : Call) :
    inserted items (calls ++ [call]) = inserted items calls ++ call.items := by
  rw [inserted, List.flatMap_append, List.flatMap_singleton, ← List.append_assoc, inserted]

/-- A further call gives the lookaheads of its items, or those that it adds. -/
lemma given_concat {x : Symbol} : Given items (calls ++ [call]) c x ↔
    Given items calls c x ∨ (∃ i ∈ call.items, i.core = c ∧ x ∈ i.lookaheads) ∨
      ∃ symbols, call = .addLookaheads c symbols ∧ x ∈ symbols := by
  unfold Given
  simp only [inserted_concat, List.mem_append, List.mem_singleton, or_and_right, exists_or, @eq_comm _ call]
  exact or_or_or_comm

/-- The set of the given items holds these. -/
lemma keeps_of_ofList (h : ofList items = .ok s) : s.Keeps items [] := by
  obtain ⟨s', hs', hset, hexact⟩ := exists_ofList_eq_ok items
  obtain rfl := Except.ok.inj (h.symm.trans hs')
  have hempty : ({} : ItemSet).Lists [] := ⟨rfl, fun _ hi => absurd hi List.not_mem_nil⟩
  refine ⟨hexact, ?_, fun c x => ?_, fun n => ?_⟩
  · rw [hset, inserted, List.flatMap_nil, List.append_nil]
    exact hempty.merge items
  · rw [hset, ItemSet.looks_ofList]
    simp [Given, inserted]
  · rw [hset, ItemSet.ofList, ItemSet.index_merge]
    simp

/-- A call leaves a set that holds what it has put there too. -/
lemma Keeps.makes (h : s.Keeps items calls) (hmakes : s.Makes call t) : t.Keeps items (calls ++ [call]) := by
  cases hmakes with
  | @insert i _ changed hok =>
    obtain ⟨u, hu, hset, hexact⟩ := h.exact.exists_insert_eq_ok i
    obtain ⟨rfl, -⟩ := Prod.mk.inj (Except.ok.inj (hok.symm.trans hu))
    refine ⟨hexact, ?_, fun c x => ?_, fun n => ?_⟩
    · rw [inserted_concat, hset]
      exact h.lists.insert i
    · rw [hset, ItemSet.looks_insert, h.looks, given_concat]
      simp [Call.items, eq_comm]
    · rw [hset, ItemSet.index_insert, h.index]
      simp
  | @merge list _ changed hok =>
    obtain ⟨u, hu, hset, hexact⟩ := h.exact.exists_merge_eq_ok list
    obtain ⟨rfl, -⟩ := Prod.mk.inj (Except.ok.inj (hok.symm.trans hu))
    refine ⟨hexact, ?_, fun c x => ?_, fun n => ?_⟩
    · rw [inserted_concat, hset]
      exact h.lists.merge list
    · rw [hset, ItemSet.looks_merge, h.looks, given_concat]
      simp [Call.items]
    · rw [hset, ItemSet.index_merge, h.index]
      simp
  | @addLookaheads n i _ symbols _ changed hi hc hok =>
    subst hc
    obtain ⟨u, hu, hset, hexact⟩ := h.exact.exists_extendAt_eq_ok hi symbols
    obtain ⟨rfl, -⟩ := Prod.mk.inj (Except.ok.inj (hok.symm.trans hu))
    have hhas : s.Has i.core := ⟨i, List.mem_of_getElem? hi, rfl⟩
    refine ⟨hexact, ?_, fun c x => ?_, fun n => ?_⟩
    · rw [inserted_concat, hset]
      simpa [Call.items] using h.lists.extend i.core (.ofList symbols)
    · rw [hset, ItemSet.looks_extend, h.looks, given_concat]
      simp [Call.items, hhas, Std.ExtTreeSet.mem_ofList, eq_comm]
    · rw [hset, ItemSet.extend, h.index]
      simp
  | @setIndex n _ hok =>
    obtain ⟨hset, hplaces⟩ := setIndex_eq_ok.1 hok
    unfold ItemSet.setIndex at hset
    split_ifs at hset with hfree
    have hset := (Except.ok.inj hset).symm
    refine ⟨h.exact.of_map_core_eq hplaces (by rw [hset]), ?_, fun c x => ?_, fun m => ?_⟩
    · rw [inserted_concat, hset]
      simpa [Call.items] using (⟨h.lists.cores, h.lists.flags⟩ : ItemSet.Lists { s.toItemSet with index := some n } _)
    · rw [given_concat, ← h.looks, hset]
      simp [Call.items, ItemSet.Looks]
    · have hsame : .setIndex m ∈ calls → m = n := by
        rw [← h.index]
        rintro hm
        rcases hfree with hnone | hn
        · cases hnone.symm.trans hm
        · exact Option.some.inj (hm.symm.trans hn)
      simp only [hset, Option.some.injEq, List.mem_append, List.mem_singleton, Call.setIndex.injEq]
      exact ⟨fun heq => Or.inr heq.symm, fun hm => (hm.elim hsame id).symm⟩

/-- A set that is reached holds what its history has put there. -/
lemma Reached.keeps (h : Reached items calls s) : s.Keeps items calls := by
  induction h with
  | new h => exact keeps_of_ofList h
  | concat _ hcall ih => exact ih.makes hcall

/-! ### What a set tells -/

/-- Under a core that has been inserted the set finds an item with all the lookaheads that have been given there and no
others, and under other cores it finds nothing. -/
structure Finds (s : IndexedItemSet) (items : List Item) (calls : List Call) : Prop where
  found : ∀ c ∈ (inserted items calls).map Item.core, ∃ i ∈ s.items, s.get? c = .ok (some i) ∧ i.core = c ∧
    ∀ x, x ∈ i.lookaheads ↔ Given items calls c x
  missing : ∀ c ∉ (inserted items calls).map Item.core, s.get? c = .ok none
  search : ∀ c, s.get? c = .ok (s.toItemSet.get? c)

/-- Each further call comes to an end and does to the items what it does without an index.  It reports a change exactly
when it brings something new, and a number is refused exactly when the set has another one. -/
structure Answers (s : IndexedItemSet) : Prop where
  insert : ∀ i, ∃ t changed, s.insert i = .ok (t, changed) ∧ s.toItemSet.insert i = (t.toItemSet, changed) ∧
    (changed = true ↔ s.Lacks i)
  merge : ∀ items, ∃ t changed, s.merge items = .ok (t, changed) ∧
    s.toItemSet.merge items = (t.toItemSet, changed) ∧ (changed = true ↔ ∃ i ∈ items, s.Lacks i)
  addLookaheads : ∀ (n : Nat) (i : Item) (symbols : List Symbol), s.items[n]? = some i →
    ∃ t changed, s.extendAt n symbols = .ok (t, changed) ∧
      s.addLookaheads? i.core symbols = .ok (some (t, changed)) ∧
      s.toItemSet.addLookaheads? i.core (.ofList symbols) = some (t.toItemSet, changed) ∧
      (changed = true ↔ ∃ x ∈ symbols, x ∉ i.lookaheads)
  absent : ∀ c symbols, ¬ s.Has c → s.addLookaheads? c symbols = .ok none
  setIndex : ∀ n, (∃ t, s.setIndex n = .ok t ∧ s.toItemSet.setIndex n = .ok t.toItemSet) ↔
    s.index = none ∨ s.index = some n

/-- What a set holds is found there. -/
lemma Keeps.finds (h : s.Keeps items calls) : s.Finds items calls where
  found c hc := by
    obtain ⟨i, hi, rfl⟩ := h.lists.has_iff.2 hc
    refine ⟨i, hi, by rw [h.exact.get?_eq, h.exact.distinct.get?_eq hi], rfl, fun x => ?_⟩
    rw [← h.looks]
    exact ⟨fun hx => ⟨i, hi, rfl, hx⟩, h.exact.distinct.mem_of_looks hi⟩
  missing c hc := by rw [h.exact.get?_eq, ItemSet.get?_eq_none.2 (mt h.lists.has_iff.1 hc)]
  search := h.exact.get?_eq

/-- A set with an exact index answers further calls. -/
lemma Exact.answers (h : s.Exact) : s.Answers where
  insert i := by
    obtain ⟨t, ht, hset, -⟩ := h.exists_insert_eq_ok i
    exact ⟨t, _, ht, by rw [hset], h.distinct.insert_changed_iff i⟩
  merge items := by
    obtain ⟨t, ht, hset, -⟩ := h.exists_merge_eq_ok items
    exact ⟨t, _, ht, by rw [hset], h.distinct.merge_changed_iff items⟩
  addLookaheads _ _ symbols hi := h.exists_addLookaheads?_eq_ok hi symbols
  absent _ symbols hc := h.addLookaheads?_eq_none hc symbols
  setIndex n := by
    constructor
    · rintro ⟨t, -, hset⟩
      unfold ItemSet.setIndex at hset
      split_ifs at hset with hfree
      exact hfree
    · intro hfree
      have hset : s.toItemSet.setIndex n = .ok { s.toItemSet with index := some n } := if_pos hfree
      exact ⟨{ s with index := some n }, setIndex_eq_ok.2 ⟨hset, rfl⟩, hset⟩

/-- An item set with an index holds what its history has put there.  Along all calls the cores of the items are distinct,
the index leads from exactly these cores to their places, and the items stand in the order of their first insertion,
with the kernel flag of that insertion.  Under a core that has been inserted the item is found whose lookaheads are
exactly those that have ever been inserted or added there, and under other cores nothing is found.  Each further call
comes to an end, and reports a change exactly when the set lacks an item or a lookahead that the call brings.  The key is
the list of the cores of the kernel, in strictly ascending order.  Two sets into which only kernel items have been
inserted have the same key exactly when the same cores have been inserted, in any order and any number of times. -/
theorem reached_sets_keep_their_history (items : List Item) :
    (∃ s, ofList items = .ok s ∧ s.toItemSet = ItemSet.ofList items) ∧
    ∀ calls s, Reached items calls s →
      (s.Distinct ∧ s.Keeps items calls ∧ s.Finds items calls) ∧ s.Answers ∧
      (s.kernelKey.Pairwise (fun c d => c.rule < d.rule ∨ c.rule = d.rule ∧ c.dot < d.dot) ∧
        (∀ c, c ∈ s.kernelKey ↔ s.HasKernel c) ∧ s.kernelKey = s.toItemSet.kernelKey) ∧
      ∀ items' calls' t, Reached items' calls' t → (∀ i ∈ inserted items calls, i.isKernel = true) →
        (∀ i ∈ inserted items' calls', i.isKernel = true) →
        (s.kernelKey = t.kernelKey ↔
          ∀ c, c ∈ (inserted items calls).map Item.core ↔ c ∈ (inserted items' calls').map Item.core) := by
  refine ⟨?_, fun calls s hs => ?_⟩
  · obtain ⟨s, hs, hset, -⟩ := exists_ofList_eq_ok items
    exact ⟨s, hs, hset⟩
  have hkeeps := hs.keeps
  have hkey := kernelKey_eq hkeeps.exact.distinct
  refine ⟨⟨hkeeps.exact.distinct, hkeeps, hkeeps.finds⟩, hkeeps.exact.answers, ⟨?_, fun c => ?_, hkey⟩, ?_⟩
  · rw [hkey]
    exact Std.ExtTreeSet.ordered_toList.imp Core.compare_eq_lt.1
  · rw [hkey, ItemSet.mem_kernelKey]
  · intro items' calls' t ht hall hall'
    have hkeeps' := ht.keeps
    rw [hkey, kernelKey_eq hkeeps'.exact.distinct, ItemSet.kernelKey_eq_iff]
    simp only [hkeeps.lists.hasKernel_iff hall, hkeeps'.lists.hasKernel_iff hall']

/-- One core is inserted twice and then takes in lookaheads by itself, and the set is numbered.  Another set is given the
same cores for its kernel, in the other order and repeated.  The first set finds all the lookaheads of the core, and the
two sets have the same key. -/
theorem reached_sets_keep_their_history_repeated :
    ∃ s t i,
      Reached [⟨⟨3, 1⟩, true, {⟨5⟩}⟩, ⟨⟨2, 2⟩, true, ∅⟩]
        [.insert ⟨⟨3, 1⟩, true, {⟨6⟩}⟩, .addLookaheads ⟨3, 1⟩ [⟨7⟩, ⟨5⟩], .setIndex 4] s ∧
      Reached [] [.merge [⟨⟨2, 2⟩, true, ∅⟩, ⟨⟨3, 1⟩, true, ∅⟩, ⟨⟨2, 2⟩, true, {⟨6⟩}⟩]] t ∧
      s.get? ⟨3, 1⟩ = .ok (some i) ∧ (∀ x, x ∈ i.lookaheads ↔ x ∈ [⟨5⟩, ⟨6⟩, ⟨7⟩]) ∧ s.kernelKey = t.kernelKey := by
  obtain ⟨s, hs⟩ : ∃ s, Reached [⟨⟨3, 1⟩, true, {⟨5⟩}⟩, ⟨⟨2, 2⟩, true, ∅⟩]
      ([] ++ [.insert ⟨⟨3, 1⟩, true, {⟨6⟩}⟩] ++ [.addLookaheads ⟨3, 1⟩ [⟨7⟩, ⟨5⟩]] ++ [.setIndex 4]) s :=
    ⟨_, .concat (.concat (.concat (.new (by rfl)) (.insert (by rfl))) (.addLookaheads (n := 0) (by rfl) (by rfl) (by rfl)))
      (.setIndex (by rfl))⟩
  obtain ⟨t, ht⟩ : ∃ t, Reached []
      ([] ++ [.merge [⟨⟨2, 2⟩, true, ∅⟩, ⟨⟨3, 1⟩, true, ∅⟩, ⟨⟨2, 2⟩, true, {⟨6⟩}⟩]]) t :=
    ⟨_, .concat (.new (by rfl)) (.merge (by rfl))⟩
  obtain ⟨⟨-, -, hfinds⟩, -, -, hkeys⟩ := (reached_sets_keep_their_history _).2 _ s hs
  obtain ⟨i, -, hi, -, hlooks⟩ := hfinds.found ⟨3, 1⟩ (by decide)
  refine ⟨s, t, i, hs, ht, hi, fun x => ?_, (hkeys _ _ t ht ?_ ?_).2 fun c => ?_⟩
  · calc x ∈ i.lookaheads ↔ _ := hlooks x
      _ ↔ (x = ⟨5⟩ ∨ x = ⟨6⟩) ∨ x = ⟨7⟩ ∨ x = ⟨5⟩ := by simp [Given, inserted, Call.items, @eq_comm Symbol _ x]
      _ ↔ x ∈ [⟨5⟩, ⟨6⟩, ⟨7⟩] := by
        simp only [List.mem_cons, List.not_mem_nil, or_false]
        tauto
  · decide
  · decide
  · show c ∈ [⟨3, 1⟩, ⟨2, 2⟩, ⟨3, 1⟩] ↔ c ∈ [⟨2, 2⟩, ⟨3, 1⟩, ⟨2, 2⟩]
    simp only [List.mem_cons, List.not_mem_nil, or_false]
    tauto

end IndexedItemSet

end Lalr
