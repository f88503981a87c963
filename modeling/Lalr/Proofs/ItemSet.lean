import Lalr.ItemSet
import Mathlib.Data.Finset.Card
import Mathlib.Data.List.Nodup
import Mathlib.Tactic.Common

/-!
# Item sets as relations

An item set is seen through three relations: the cores it has, the cores of its kernel, and the lookaheads of
each core.  Inserting items adds to these relations and to nothing else, whatever the order of the items.

The weight of an item set counts its items and their lookaheads.  An insertion that reports a change raises
the weight, and one that reports none leaves the set as it was.
-/

namespace Lalr

/-! ### Sets of symbols as finite sets -/

namespace SymbolSet

/-- The members of a set of symbols. -/
def toFinset (s : SymbolSet) : Finset Symbol := s.toList.toFinset

@[simp] lemma mem_toFinset {s : SymbolSet} {x : Symbol} : x ∈ s.toFinset ↔ x ∈ s := by
  rw [toFinset, List.mem_toFinset, Std.ExtTreeSet.mem_toList]

/-- The listed members of a set of symbols are distinct. -/
lemma nodup_toList (s : SymbolSet) : s.toList.Nodup :=
  Std.ExtTreeSet.distinct_toList.imp fun h heq => h (by simp [heq])

@[simp] lemma card_toFinset (s : SymbolSet) : s.toFinset.card = s.size := by
  rw [toFinset, List.toFinset_card_of_nodup s.nodup_toList, Std.ExtTreeSet.length_toList]

/-- A union is at least as large as its first part. -/
lemma size_le_size_union (s t : SymbolSet) : s.size ≤ (s ∪ t).size := by
  rw [← card_toFinset, ← card_toFinset]
  exact Finset.card_le_card fun x => by simpa using Or.inl

/-- A union with something new is larger. -/
lemma size_lt_size_union {s t : SymbolSet} (h : ¬ SymbolSet.subset t s = true) :
    s.size < (s ∪ t).size := by
  rw [← card_toFinset, ← card_toFinset]
  refine Finset.card_lt_card ⟨fun x => by simpa using Or.inl, fun hsub => h ?_⟩
  rw [subset_iff]
  intro x hx
  exact mem_toFinset.1 (hsub (mem_toFinset.2 (Std.ExtTreeSet.mem_union_iff.2 (Or.inr hx))))

/-- A set is the set of the list of its members. -/
lemma ofList_toList (set : SymbolSet) : Std.ExtTreeSet.ofList set.toList = set := by
  refine Std.ExtTreeSet.ext_mem fun x => ?_
  rw [Std.ExtTreeSet.mem_ofList, List.contains_iff_mem, Std.ExtTreeSet.mem_toList]

/-- A union with what is there already is the set itself. -/
lemma union_eq_self {s t : SymbolSet} (h : subset t s = true) : s ∪ t = s := by
  refine Std.ExtTreeSet.ext_mem fun x => ?_
  rw [Std.ExtTreeSet.mem_union_iff]
  exact ⟨fun hx => hx.elim id (subset_iff.1 h x), Or.inl⟩

/-- Sizes of sets are summed up on top of what there is. -/
lemma foldl_size_eq {α : Type} (set : α → SymbolSet) (xs : List α) (start : Nat) :
    xs.foldl (fun count x => count + (set x).size) start =
      start + (xs.flatMap fun x => (set x).toList).length := by
  induction xs generalizing start with
  | nil => simp
  | cons x xs ih =>
    rw [List.foldl_cons, ih, List.flatMap_cons, List.length_append, Std.ExtTreeSet.length_toList]
    omega

end SymbolSet

namespace ItemSet

/-! ### The relations of an item set -/

/-- The set has an item with the given core. -/
def Has (s : ItemSet) (c : Core) : Prop := ∃ i ∈ s.items, i.core = c

/-- The set has an item of the kernel with the given core. -/
def HasKernel (s : ItemSet) (c : Core) : Prop := ∃ i ∈ s.items, i.isKernel = true ∧ i.core = c

/-- The set has an item with the given core and, among others, the given lookahead. -/
def Looks (s : ItemSet) (c : Core) (x : Symbol) : Prop :=
  ∃ i ∈ s.items, i.core = c ∧ x ∈ i.lookaheads

/-- No two items have the same core. -/
def Distinct (s : ItemSet) : Prop := (s.items.map Item.core).Nodup

/-- The number of items and of their lookaheads. -/
def weightOf : List Item → Nat
  | [] => 0
  | i :: rest => i.lookaheads.size + 1 + weightOf rest

/-- The number of items of a set and of their lookaheads. -/
def weight (s : ItemSet) : Nat := weightOf s.items

/-- A core with a lookahead is a core of the set. -/
lemma Looks.has {s : ItemSet} {c : Core} {x : Symbol} (h : s.Looks c x) : s.Has c := by
  obtain ⟨i, hi, hc, -⟩ := h
  exact ⟨i, hi, hc⟩

/-- A core of the kernel is a core of the set. -/
lemma HasKernel.has {s : ItemSet} {c : Core} (h : s.HasKernel c) : s.Has c := by
  obtain ⟨i, hi, -, hc⟩ := h
  exact ⟨i, hi, hc⟩

/-- The cores of the listed kernel are the cores of the kernel. -/
lemma mem_kernel_map {s : ItemSet} {c : Core} : c ∈ s.kernel.map Item.core ↔ s.HasKernel c := by
  unfold kernel HasKernel
  rw [List.mem_map]
  constructor
  · rintro ⟨i, hi, hc⟩
    obtain ⟨hi, hk⟩ := List.mem_filter.1 hi
    exact ⟨i, hi, hk, hc⟩
  · rintro ⟨i, hi, hk, hc⟩
    exact ⟨i, List.mem_filter.2 ⟨hi, hk⟩, hc⟩

/-- The item found under a core has that core. -/
lemma get?_eq_some {s : ItemSet} {c : Core} {i : Item} (h : s.get? c = some i) :
    i ∈ s.items ∧ i.core = c := by
  unfold get? at h
  exact ⟨List.mem_of_find?_eq_some h, by simpa using List.find?_some h⟩

/-- No item is found exactly under the cores that the set does not have. -/
lemma get?_eq_none {s : ItemSet} {c : Core} : s.get? c = none ↔ ¬ s.Has c := by
  unfold get? Has
  rw [List.find?_eq_none]
  simp

/-- The item of a core is one item. -/
lemma Distinct.eq_of_core {s : ItemSet} (h : s.Distinct) {i j : Item} (hi : i ∈ s.items) (hj : j ∈ s.items)
    (hcore : i.core = j.core) : i = j :=
  List.inj_on_of_nodup_map h hi hj hcore

/-- In a set with distinct cores, the item of a core is the one that is found under it. -/
lemma Distinct.get?_eq {s : ItemSet} (h : s.Distinct) {i : Item} (hi : i ∈ s.items) : s.get? i.core = some i := by
  cases hj : s.get? i.core with
  | none => exact absurd ⟨i, hi, rfl⟩ (get?_eq_none.1 hj)
  | some j =>
    obtain ⟨hmem, hcore⟩ := get?_eq_some hj
    rw [h.eq_of_core hmem hi hcore]

/-- All the lookaheads of a core are lookaheads of its item. -/
lemma Distinct.mem_of_looks {s : ItemSet} (h : s.Distinct) {i : Item} (hi : i ∈ s.items) {x : Symbol}
    (hx : s.Looks i.core x) : x ∈ i.lookaheads := by
  obtain ⟨j, hj, hcore, hx⟩ := hx
  rwa [h.eq_of_core hi hj hcore.symm]

/-! ### Inserting one item -/

/-- What inserting an item comes to. -/
lemma insert_cases (s : ItemSet) (i : Item) :
    (∃ j, s.get? i.core = some j ∧ SymbolSet.subset i.lookaheads j.lookaheads = true ∧
      s.insert i = (s, false)) ∨
    (∃ j, s.get? i.core = some j ∧ ¬ SymbolSet.subset i.lookaheads j.lookaheads = true ∧
      s.insert i = (s.extend i.core i.lookaheads, true)) ∨
    (s.get? i.core = none ∧ s.insert i = ({ s with items := s.items ++ [i] }, true)) := by
  unfold insert addLookaheads?
  cases s.get? i.core with
  | none => exact Or.inr (Or.inr ⟨rfl, rfl⟩)
  | some j =>
    by_cases hsub : SymbolSet.subset i.lookaheads j.lookaheads = true
    · exact Or.inl ⟨j, rfl, hsub, by simp [hsub]⟩
    · exact Or.inr (Or.inl ⟨j, rfl, hsub, by simp [hsub]⟩)

/-- Extending lookaheads keeps the list of cores. -/
lemma map_core_extend (s : ItemSet) (c : Core) (set : SymbolSet) :
    (s.extend c set).items.map Item.core = s.items.map Item.core := by
  unfold extend
  rw [List.map_map]
  refine List.map_congr_left fun i _ => ?_
  by_cases hi : i.core = c <;> simp [hi]

/-- A core is in a set when it is in the list of its cores. -/
lemma has_iff_mem_map {s : ItemSet} {c : Core} : s.Has c ↔ c ∈ s.items.map Item.core :=
  List.mem_map.symm

/-- Extending lookaheads adds them under the core. -/
lemma looks_extend {s : ItemSet} {c d : Core} {set : SymbolSet} {x : Symbol} :
    (s.extend c set).Looks d x ↔ s.Looks d x ∨ d = c ∧ x ∈ set ∧ s.Has c := by
  unfold Looks extend Has
  simp only [List.mem_map, exists_exists_and_eq_and]
  constructor
  · rintro ⟨i, hi, hd, hx⟩
    by_cases hc : i.core = c
    · simp only [hc, if_true, Std.ExtTreeSet.mem_union_iff] at hd hx
      rcases hx with hx | hx
      · exact Or.inl ⟨i, hi, hc.trans hd, hx⟩
      · exact Or.inr ⟨hd.symm, hx, i, hi, hc⟩
    · simp only [hc, if_false] at hd hx
      exact Or.inl ⟨i, hi, hd, hx⟩
  · rintro (⟨i, hi, hd, hx⟩ | ⟨rfl, hx, i, hi, hc⟩)
    · refine ⟨i, hi, ?_, ?_⟩
      · by_cases hc : i.core = c <;> simp [hc, ← hd]
      · by_cases hc : i.core = c <;> simp [hc, hx, Std.ExtTreeSet.mem_union_iff]
    · exact ⟨i, hi, by simp [hc], by simp [hc, hx, Std.ExtTreeSet.mem_union_iff]⟩

/-- Extending lookaheads keeps the kernel. -/
lemma hasKernel_extend {s : ItemSet} {c d : Core} {set : SymbolSet} :
    (s.extend c set).HasKernel d ↔ s.HasKernel d := by
  unfold HasKernel extend
  simp only [List.mem_map, exists_exists_and_eq_and]
  refine exists_congr fun i => and_congr_right fun _ => ?_
  by_cases hc : i.core = c <;> simp [hc]

/-- Inserting an item adds its core. -/
lemma has_insert {s : ItemSet} {i : Item} {c : Core} :
    (s.insert i).1.Has c ↔ s.Has c ∨ c = i.core := by
  rcases insert_cases s i with ⟨j, hj, -, heq⟩ | ⟨j, hj, -, heq⟩ | ⟨-, heq⟩
  · rw [heq]
    refine ⟨Or.inl, ?_⟩
    rintro (h | rfl)
    · exact h
    · exact ⟨j, get?_eq_some hj⟩
  · rw [heq, has_iff_mem_map, map_core_extend, ← has_iff_mem_map]
    refine ⟨Or.inl, ?_⟩
    rintro (h | rfl)
    · exact h
    · exact ⟨j, get?_eq_some hj⟩
  · rw [heq, has_iff_mem_map, has_iff_mem_map]
    simp

/-- Inserting an item adds its lookaheads under its core. -/
lemma looks_insert {s : ItemSet} {i : Item} {c : Core} {x : Symbol} :
    (s.insert i).1.Looks c x ↔ s.Looks c x ∨ c = i.core ∧ x ∈ i.lookaheads := by
  rcases insert_cases s i with ⟨j, hj, hsub, heq⟩ | ⟨j, hj, -, heq⟩ | ⟨-, heq⟩
  · rw [heq]
    refine ⟨Or.inl, ?_⟩
    rintro (h | ⟨rfl, hx⟩)
    · exact h
    · exact ⟨j, (get?_eq_some hj).1, (get?_eq_some hj).2, SymbolSet.subset_iff.1 hsub x hx⟩
  · have hhas : s.Has i.core := ⟨j, get?_eq_some hj⟩
    rw [heq, looks_extend]
    simp [hhas]
  · rw [heq]
    unfold Looks
    simp only [List.mem_append, List.mem_singleton, or_and_right, exists_or, exists_eq_left]
    exact or_congr_right (and_congr_left fun _ => eq_comm)

/-- Inserting an item outside the kernel keeps the kernel. -/
lemma hasKernel_insert {s : ItemSet} {i : Item} (hi : i.isKernel = false) {c : Core} :
    (s.insert i).1.HasKernel c ↔ s.HasKernel c := by
  rcases insert_cases s i with ⟨j, -, -, heq⟩ | ⟨j, -, -, heq⟩ | ⟨-, heq⟩
  · rw [heq]
  · rw [heq, hasKernel_extend]
  · rw [heq]
    unfold HasKernel
    simp [hi]

/-- Inserting an item keeps cores distinct. -/
lemma Distinct.insert {s : ItemSet} (h : s.Distinct) (i : Item) : (s.insert i).1.Distinct := by
  rcases insert_cases s i with ⟨j, -, -, heq⟩ | ⟨j, -, -, heq⟩ | ⟨hnone, heq⟩
  · rwa [heq]
  · rw [heq]
    unfold Distinct
    rwa [map_core_extend]
  · rw [heq]
    have hnot := get?_eq_none.1 hnone
    rw [has_iff_mem_map] at hnot
    simpa [Distinct, List.nodup_append] using ⟨h, fun a ha hcore => hnot (List.mem_map.2 ⟨a, ha, hcore⟩)⟩

/-- Inserting an item keeps the items of the kernel in the kernel, and adds only kernel items if the set has
no others. -/
lemma forall_isKernel_insert {s : ItemSet} {i : Item} (h : ∀ j ∈ s.items, j.isKernel = true)
    (hi : i.isKernel = true) : ∀ j ∈ (s.insert i).1.items, j.isKernel = true := by
  rcases insert_cases s i with ⟨j, -, -, heq⟩ | ⟨j, -, -, heq⟩ | ⟨-, heq⟩
  · rwa [heq]
  · rw [heq]
    intro k hk
    obtain ⟨l, hl, rfl⟩ := List.mem_map.1 hk
    by_cases hc : l.core = i.core <;> simp [hc, h l hl]
  · rw [heq]
    intro k hk
    rcases List.mem_append.1 hk with hk | hk
    · exact h k hk
    · rw [List.mem_singleton.1 hk, hi]

/-- An insertion that reports no change leaves the set as it was. -/
lemma insert_eq_of_unchanged {s : ItemSet} {i : Item} (h : (s.insert i).2 = false) :
    (s.insert i).1 = s := by
  rcases insert_cases s i with ⟨j, -, -, heq⟩ | ⟨j, -, -, heq⟩ | ⟨-, heq⟩
  · rw [heq]
  · rw [heq] at h
    cases h
  · rw [heq] at h
    cases h

/-- Inserting an item whose core is there with its lookaheads changes nothing. -/
lemma Distinct.insert_eq_self {s : ItemSet} (h : s.Distinct) {i j : Item} (hj : j ∈ s.items)
    (hcore : j.core = i.core) (hsub : ∀ x ∈ i.lookaheads, x ∈ j.lookaheads) : s.insert i = (s, false) := by
  have hfound : s.get? i.core = some j := hcore ▸ h.get?_eq hj
  rw [ItemSet.insert, addLookaheads?, hfound, Option.map_some, if_pos (SymbolSet.subset_iff.2 hsub)]

/-- Extending an item by lookaheads that it has changes nothing. -/
lemma Distinct.extend_eq_self {s : ItemSet} (hs : s.Distinct) {i : Item} (hi : i ∈ s.items) {lookaheads : SymbolSet}
    (hsub : ∀ x ∈ lookaheads, x ∈ i.lookaheads) : s.extend i.core lookaheads = s := by
  suffices hitems : (s.extend i.core lookaheads).items = s.items by
    exact congrArg (fun items => { s with items := items }) hitems
  refine (List.map_congr_left fun j hj => ?_).trans (List.map_id _)
  by_cases hc : j.core = i.core
  · obtain rfl := hs.eq_of_core hj hi hc
    rw [if_pos rfl, SymbolSet.union_eq_self (SymbolSet.subset_iff.2 hsub)]
    rfl
  · rw [if_neg hc]
    rfl

/-- Inserting an item extends the one with its core, if there is one. -/
lemma Distinct.insert_of_has {s : ItemSet} (hs : s.Distinct) {i : Item} (hi : s.Has i.core) :
    (s.insert i).1 = s.extend i.core i.lookaheads := by
  rcases insert_cases s i with ⟨j, hj, hsub, heq⟩ | ⟨j, -, -, heq⟩ | ⟨hnone, -⟩
  · obtain ⟨hmem, hcore⟩ := get?_eq_some hj
    rw [heq, ← hcore, hs.extend_eq_self hmem (SymbolSet.subset_iff.1 hsub)]
  · rw [heq]
  · exact absurd hi (get?_eq_none.1 hnone)

/-- Inserting an item with a new core puts it at the end. -/
lemma insert_of_not_has {s : ItemSet} {i : Item} (hi : ¬ s.Has i.core) :
    (s.insert i).1 = { s with items := s.items ++ [i] } := by
  rw [ItemSet.insert, addLookaheads?, get?_eq_none.2 hi]
  rfl

/-- The weights of joined lists add up. -/
lemma weightOf_append (xs ys : List Item) : weightOf (xs ++ ys) = weightOf xs + weightOf ys := by
  induction xs with
  | nil => simp [weightOf]
  | cons i xs ih =>
    rw [List.cons_append, weightOf, weightOf, ih]
    omega

/-- Extending lookaheads does not lower the weight. -/
lemma weight_le_weight_extend (s : ItemSet) (c : Core) (set : SymbolSet) :
    s.weight ≤ (s.extend c set).weight := by
  unfold weight extend
  induction s.items with
  | nil => exact le_rfl
  | cons i rest ih =>
    rw [List.map_cons, weightOf, weightOf]
    have hle := SymbolSet.size_le_size_union i.lookaheads set
    by_cases hc : i.core = c
    · simp only [hc, if_true] at ih ⊢
      omega
    · simp only [hc, if_false] at ih ⊢
      omega

/-- Extending lookaheads by something new raises the weight. -/
lemma weight_lt_weight_extend {s : ItemSet} {i : Item} {set : SymbolSet}
    (hi : i ∈ s.items) (hnew : ¬ SymbolSet.subset set i.lookaheads = true) :
    s.weight < (s.extend i.core set).weight := by
  obtain ⟨before, after, hitems⟩ := List.append_of_mem hi
  have hbefore := weight_le_weight_extend { s with items := before } i.core set
  have hafter := weight_le_weight_extend { s with items := after } i.core set
  have hlt := SymbolSet.size_lt_size_union hnew
  unfold weight extend at *
  simp only [hitems, List.map_append, List.map_cons, weightOf_append, weightOf, if_true] at *
  omega

/-- An insertion raises the weight when it reports a change, and never lowers it. -/
lemma weight_insert (s : ItemSet) (i : Item) :
    s.weight ≤ (s.insert i).1.weight ∧ ((s.insert i).2 = true → s.weight < (s.insert i).1.weight) := by
  rcases insert_cases s i with ⟨j, -, -, heq⟩ | ⟨j, hj, hnew, heq⟩ | ⟨-, heq⟩
  · rw [heq]
    exact ⟨le_rfl, nofun⟩
  · obtain ⟨hj, hcore⟩ := get?_eq_some hj
    have hlt := weight_lt_weight_extend hj hnew
    rw [hcore] at hlt
    rw [heq]
    exact ⟨hlt.le, fun _ => hlt⟩
  · have hlt : s.weight < weight { s with items := s.items ++ [i] } := by
      unfold weight
      rw [weightOf_append, weightOf, weightOf]
      omega
    rw [heq]
    exact ⟨hlt.le, fun _ => hlt⟩

/-! ### Inserting several items -/

/-- Inserting nothing changes nothing. -/
@[simp] lemma merge_nil (s : ItemSet) : s.merge [] = (s, false) := rfl

/-- Inserting several items inserts the first one and then the others. -/
lemma merge_cons (s : ItemSet) (i : Item) (items : List Item) :
    s.merge (i :: items) =
      (((s.insert i).1.merge items).1, (s.insert i).2 || ((s.insert i).1.merge items).2) := by
  have hflag : ∀ (xs : List Item) (t : ItemSet) (flag : Bool),
      xs.foldl (fun (acc : ItemSet × Bool) i =>
        ((acc.1.insert i).1, acc.2 || (acc.1.insert i).2)) (t, flag) =
        ((t.merge xs).1, flag || (t.merge xs).2) := by
    intro xs
    induction xs with
    | nil => simp
    | cons x xs ih =>
      intro t flag
      have hx : t.merge (x :: xs) = xs.foldl (fun (acc : ItemSet × Bool) i =>
        ((acc.1.insert i).1, acc.2 || (acc.1.insert i).2)) ((t.insert x).1, (t.insert x).2) := by
        simp [merge]
      rw [List.foldl_cons, ih, hx, ih, Bool.or_assoc]
  have h := hflag items (s.insert i).1 (s.insert i).2
  simpa [merge] using h

/-- Merging adds the cores of the items. -/
lemma has_merge {s : ItemSet} {items : List Item} {c : Core} :
    (s.merge items).1.Has c ↔ s.Has c ∨ ∃ i ∈ items, i.core = c := by
  induction items generalizing s with
  | nil => simp
  | cons i items ih =>
    rw [merge_cons, ih, has_insert, List.exists_mem_cons_iff, or_assoc, eq_comm]

/-- Merging adds the lookaheads of the items. -/
lemma looks_merge {s : ItemSet} {items : List Item} {c : Core} {x : Symbol} :
    (s.merge items).1.Looks c x ↔ s.Looks c x ∨ ∃ i ∈ items, i.core = c ∧ x ∈ i.lookaheads := by
  induction items generalizing s with
  | nil => simp
  | cons i items ih =>
    rw [merge_cons, ih, looks_insert, List.exists_mem_cons_iff, or_assoc, eq_comm]

/-- Merging items outside the kernel keeps the kernel. -/
lemma hasKernel_merge {s : ItemSet} {items : List Item} (h : ∀ i ∈ items, i.isKernel = false)
    {c : Core} : (s.merge items).1.HasKernel c ↔ s.HasKernel c := by
  induction items generalizing s with
  | nil => simp
  | cons i items ih =>
    rw [merge_cons, ih fun j hj => h j (List.mem_cons_of_mem i hj),
      hasKernel_insert (h i List.mem_cons_self)]

/-- Merging keeps cores distinct. -/
lemma Distinct.merge {s : ItemSet} (h : s.Distinct) (items : List Item) :
    (s.merge items).1.Distinct := by
  induction items generalizing s with
  | nil => exact h
  | cons i items ih =>
    rw [merge_cons]
    exact ih (h.insert i)

/-- Merging kernel items into kernel items gives kernel items. -/
lemma forall_isKernel_merge {s : ItemSet} {items : List Item} (hs : ∀ j ∈ s.items, j.isKernel = true)
    (h : ∀ i ∈ items, i.isKernel = true) : ∀ j ∈ (s.merge items).1.items, j.isKernel = true := by
  induction items generalizing s with
  | nil => exact hs
  | cons i items ih =>
    rw [merge_cons]
    exact ih (forall_isKernel_insert hs (h i List.mem_cons_self)) fun j hj =>
      h j (List.mem_cons_of_mem i hj)

/-- A merge that reports no change leaves the set as it was. -/
lemma merge_eq_of_unchanged {s : ItemSet} {items : List Item} (h : (s.merge items).2 = false) :
    (s.merge items).1 = s := by
  induction items generalizing s with
  | nil => rfl
  | cons i items ih =>
    rw [merge_cons] at h ⊢
    obtain ⟨hi, hitems⟩ := Bool.or_eq_false_iff.1 h
    rw [ih hitems, insert_eq_of_unchanged hi]

/-- Merging items whose cores are there with their lookaheads changes nothing. -/
lemma Distinct.merge_eq_self {s : ItemSet} (h : s.Distinct) {items : List Item}
    (hitems : ∀ i ∈ items, ∃ j ∈ s.items, j.core = i.core ∧ ∀ x ∈ i.lookaheads, x ∈ j.lookaheads) :
    s.merge items = (s, false) := by
  induction items with
  | nil => rfl
  | cons i items ih =>
    obtain ⟨j, hj, hcore, hsub⟩ := hitems i List.mem_cons_self
    rw [merge_cons, h.insert_eq_self hj hcore hsub, ih fun k hk => hitems k (List.mem_cons_of_mem i hk)]
    rfl

/-- A merge raises the weight when it reports a change, and never lowers it. -/
lemma weight_merge (s : ItemSet) (items : List Item) :
    s.weight ≤ (s.merge items).1.weight ∧
      ((s.merge items).2 = true → s.weight < (s.merge items).1.weight) := by
  induction items generalizing s with
  | nil => exact ⟨le_rfl, nofun⟩
  | cons i items ih =>
    rw [merge_cons]
    obtain ⟨hle, hlt⟩ := weight_insert s i
    obtain ⟨hle', hlt'⟩ := ih (s.insert i).1
    refine ⟨hle.trans hle', fun h => ?_⟩
    rcases (Bool.or_eq_true _ _).mp h with h | h
    · exact (hlt h).trans_le hle'
    · exact hle.trans_lt (hlt' h)

/-- Merging changes nothing but the items. -/
lemma exists_merge_eq (s : ItemSet) (items : List Item) : ∃ items', (s.merge items).1 = { s with items := items' } := by
  induction items generalizing s with
  | nil => exact ⟨s.items, rfl⟩
  | cons i items ih =>
    rw [merge_cons]
    obtain ⟨items', hmerge⟩ := ih (s.insert i).1
    refine ⟨items', hmerge.trans ?_⟩
    rcases insert_cases s i with ⟨j, -, -, heq⟩ | ⟨j, -, -, heq⟩ | ⟨-, heq⟩ <;> simp [heq, extend]

/-- Merging keeps the number of the set. -/
lemma index_merge (s : ItemSet) (items : List Item) : (s.merge items).1.index = s.index := by
  obtain ⟨items', hmerge⟩ := s.exists_merge_eq items
  rw [hmerge]

/-- Inserting an item keeps the number of the set. -/
lemma index_insert (s : ItemSet) (i : Item) : (s.insert i).1.index = s.index := by
  have h := s.index_merge [i]
  rwa [merge_cons, merge_nil] at h

/-- Merging keeps the nonterminals that are noted. -/
lemma nonterminals_merge (s : ItemSet) (items : List Item) : (s.merge items).1.nonterminals = s.nonterminals := by
  obtain ⟨items', hmerge⟩ := s.exists_merge_eq items
  rw [hmerge]

/-! ### The set of a list -/

/-- The set of a list of items has their cores. -/
lemma has_ofList {items : List Item} {c : Core} : (ofList items).Has c ↔ ∃ i ∈ items, i.core = c := by
  unfold ofList
  rw [has_merge]
  simp [Has]

/-- The set of a list of items has their lookaheads. -/
lemma looks_ofList {items : List Item} {c : Core} {x : Symbol} :
    (ofList items).Looks c x ↔ ∃ i ∈ items, i.core = c ∧ x ∈ i.lookaheads := by
  unfold ofList
  rw [looks_merge]
  simp [Looks]

/-- The set of a list of items has distinct cores. -/
lemma distinct_ofList (items : List Item) : (ofList items).Distinct :=
  Distinct.merge (by simp [Distinct]) items

/-- The set of a list of kernel items is a kernel. -/
lemma hasKernel_ofList {items : List Item} (h : ∀ i ∈ items, i.isKernel = true) {c : Core} :
    (ofList items).HasKernel c ↔ (ofList items).Has c := by
  have hall : ∀ j ∈ (ofList items).items, j.isKernel = true :=
    forall_isKernel_merge (by simp) h
  refine ⟨HasKernel.has, ?_⟩
  rintro ⟨i, hi, hc⟩
  exact ⟨i, hi, hall i hi, hc⟩

/-! ### The identity of a kernel -/

/-- The key of a set lists the cores of its kernel. -/
lemma mem_kernelKey {s : ItemSet} {c : Core} : c ∈ s.kernelKey ↔ s.HasKernel c := by
  unfold kernelKey
  rw [Std.ExtTreeSet.mem_toList, Std.ExtTreeSet.mem_ofList, List.contains_iff_mem, mem_kernel_map]

/-- Two sets have the same key exactly when their kernels have the same cores. -/
lemma kernelKey_eq_iff {s t : ItemSet} :
    s.kernelKey = t.kernelKey ↔ ∀ c, s.HasKernel c ↔ t.HasKernel c := by
  constructor
  · intro h c
    rw [← mem_kernelKey, ← mem_kernelKey, h]
  · intro h
    unfold kernelKey
    rw [Std.ExtTreeSet.toList_inj]
    refine Std.ExtTreeSet.ext_mem fun c => ?_
    rw [Std.ExtTreeSet.mem_ofList, Std.ExtTreeSet.mem_ofList, List.contains_iff_mem,
      List.contains_iff_mem, mem_kernel_map, mem_kernel_map, h]

end ItemSet

end Lalr
