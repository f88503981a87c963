import Lalr.Proofs.Closure

/-!
# The least closed item set

One item set lies *within* another one when the other has each of its items, with its lookaheads.  The computed closure
is the least closed set that a given set lies within (`Augmented.close_gives_least_closed`).  It is least because its
lookaheads are those of the relation `Closes`, and a closed set follows each rule of that relation.  A step from a
closed set changes nothing, so another closure is over after one step and gives the set back.  What an item set holds
has nothing to do with the order of its items, and its closure is determined by what it holds.
-/

namespace Lalr

namespace ItemSet

/-! ### Comparing item sets -/

/-- The second set has an item for every item of the first one, with its lookaheads and perhaps others. -/
def Within (s t : ItemSet) : Prop :=
  ∀ i ∈ s.items, ∃ j ∈ t.items, j.core = i.core ∧ ∀ x ∈ i.lookaheads, x ∈ j.lookaheads

/-- The items of the first set stand at the same places of the second one, in the kernel or outside it as before,
with their lookaheads and perhaps others. -/
def Grows (s t : ItemSet) : Prop :=
  ∀ (n : Nat) (i : Item), s.items[n]? = some i → ∃ j, t.items[n]? = some j ∧ j.core = i.core ∧
    j.isKernel = i.isKernel ∧ ∀ x ∈ i.lookaheads, x ∈ j.lookaheads

lemma Grows.refl (s : ItemSet) : s.Grows s :=
  fun _ i hi => ⟨i, hi, rfl, rfl, fun _ => id⟩

lemma Grows.trans {s t u : ItemSet} (h : s.Grows t) (h' : t.Grows u) : s.Grows u := by
  intro n i hi
  obtain ⟨j, hj, hcore, hkernel, hsub⟩ := h n i hi
  obtain ⟨k, hk, hcore', hkernel', hsub'⟩ := h' n j hj
  exact ⟨k, hk, hcore'.trans hcore, hkernel'.trans hkernel, fun x hx => hsub' x (hsub x hx)⟩

/-- A set that grows keeps the list of its cores at the beginning. -/
lemma Grows.prefix_map_core {s t : ItemSet} (h : s.Grows t) :
    s.items.map Item.core <+: t.items.map Item.core := by
  refine List.prefix_iff_getElem?.2 fun n hn => ?_
  rw [List.length_map] at hn
  obtain ⟨j, hj, hcore, -⟩ := h n _ (List.getElem?_eq_getElem hn)
  rw [List.getElem?_map, hj, List.getElem_map, Option.map_some, hcore]

/-- Extending lookaheads leaves the items in their places. -/
lemma grows_extend (s : ItemSet) (c : Core) (set : SymbolSet) : s.Grows (s.extend c set) := by
  intro n i hi
  by_cases hc : i.core = c
  · refine ⟨{ i with lookaheads := i.lookaheads ∪ set }, ?_, rfl, rfl, fun x hx => ?_⟩
    · rw [extend, List.getElem?_map, hi, Option.map_some, if_pos hc]
    · exact Std.ExtTreeSet.mem_union_iff.2 (Or.inl hx)
  · refine ⟨i, ?_, rfl, rfl, fun _ => id⟩
    rw [extend, List.getElem?_map, hi, Option.map_some, if_neg hc]

/-- Inserting an item leaves the others in their places. -/
lemma grows_insert (s : ItemSet) (i : Item) : s.Grows (s.insert i).1 := by
  rcases insert_cases s i with ⟨_, -, -, heq⟩ | ⟨_, -, -, heq⟩ | ⟨-, heq⟩
  · rw [heq]
    exact .refl s
  · rw [heq]
    exact s.grows_extend i.core i.lookaheads
  · rw [heq]
    intro n j hj
    have hlt := (List.getElem?_eq_some_iff.1 hj).1
    exact ⟨j, by rw [List.getElem?_append_left hlt, hj], rfl, rfl, fun _ => id⟩

/-- Merging leaves the items of the set in their places. -/
lemma grows_merge (s : ItemSet) (items : List Item) : s.Grows (s.merge items).1 := by
  induction items generalizing s with
  | nil => exact .refl s
  | cons i items ih =>
    rw [merge_cons]
    exact (s.grows_insert i).trans (ih _)

/-- One set lies within another one that has its cores and their lookaheads. -/
lemma within_iff {s t : ItemSet} (ht : t.Distinct) :
    s.Within t ↔ (∀ c, s.Has c → t.Has c) ∧ ∀ c x, s.Looks c x → t.Looks c x := by
  constructor
  · intro h
    constructor
    · rintro c ⟨i, hi, rfl⟩
      obtain ⟨j, hj, hcore, -⟩ := h i hi
      exact ⟨j, hj, hcore⟩
    · rintro c x ⟨i, hi, rfl, hx⟩
      obtain ⟨j, hj, hcore, hsub⟩ := h i hi
      exact ⟨j, hj, hcore, hsub x hx⟩
  · rintro ⟨hhas, hlooks⟩ i hi
    obtain ⟨j, hj, hcore⟩ := hhas i.core ⟨i, hi, rfl⟩
    exact ⟨j, hj, hcore, fun x hx => ht.mem_of_looks hj (hcore ▸ hlooks i.core x ⟨i, hi, rfl, hx⟩)⟩

/-- What a set with distinct cores holds determines which item is found under a core. -/
lemma get?_eq_get? {s t : ItemSet} (hs : s.Distinct) (ht : t.Distinct) (hhas : ∀ c, s.Has c ↔ t.Has c)
    (hkernel : ∀ c, s.HasKernel c ↔ t.HasKernel c) (hlooks : ∀ c x, s.Looks c x ↔ t.Looks c x) (c : Core) :
    s.get? c = t.get? c := by
  by_cases hc : s.Has c
  · obtain ⟨i, hi, rfl⟩ := hc
    obtain ⟨j, hj, hcore⟩ := (hhas i.core).1 ⟨i, hi, rfl⟩
    suffices hij : i = j by rw [hs.get?_eq hi, ← hcore, ht.get?_eq hj, hij]
    have hflag : i.isKernel = j.isKernel := by
      rw [Bool.eq_iff_iff]
      constructor
      · intro h
        obtain ⟨k, hk, hflag, hkcore⟩ := (hkernel i.core).1 ⟨i, hi, h, rfl⟩
        rwa [ht.eq_of_core hj hk (hcore.trans hkcore.symm)]
      · intro h
        obtain ⟨k, hk, hflag, hkcore⟩ := (hkernel i.core).2 ⟨j, hj, h, hcore⟩
        rwa [hs.eq_of_core hi hk hkcore.symm]
    have hset : i.lookaheads = j.lookaheads := by
      refine Std.ExtTreeSet.ext_mem fun x => ?_
      constructor
      · exact fun hx => ht.mem_of_looks hj (hcore ▸ (hlooks i.core x).1 ⟨i, hi, rfl, hx⟩)
      · exact fun hx => hs.mem_of_looks hi ((hlooks i.core x).2 ⟨j, hj, hcore, hx⟩)
    cases i
    cases j
    congr
    exact hcore.symm
  · rw [get?_eq_none.2 hc, get?_eq_none.2 fun h => hc ((hhas c).2 h)]

end ItemSet

namespace Augmented

variable {g : Augmented}

/-- Closing a set leaves its items in their places. -/
lemma grows_close {s t : ItemSet} (h : g.close s = .ok t) : s.Grows t := by
  obtain ⟨⟨u, count⟩, hsettle, heq⟩ := bind_eq_ok.1 h
  obtain rfl := Except.ok.inj heq
  suffices hgrows : s.Grows u from fun n i hi => hgrows n i hi
  refine settle_preserves (P := s.Grows) (fun a b changed ha hb => ?_) (.refl s) hsettle
  obtain ⟨added, -, heq⟩ := bind_eq_ok.1 hb
  obtain rfl := (Prod.mk.inj (Except.ok.inj heq)).1
  exact ha.trans (a.grows_merge _)

/-- A computed closure is marked as closed. -/
lemma isClosed_of_close {s t : ItemSet} (h : g.close s = .ok t) : t.isClosed = true := by
  obtain ⟨⟨u, count⟩, -, heq⟩ := bind_eq_ok.1 h
  obtain rfl := Except.ok.inj heq
  rfl

/-! ### What the computed closure is -/

section

variable (wf : g.WellFormed)
include wf

/-- A closed set that is marked as closed is its own closure. -/
lemma IsClosed.close_eq_self {s : ItemSet} (hclosed : g.IsClosed s) (hs : s.Distinct)
    (hvalid : ∀ c, s.Has c → g.Valid c) (hmark : s.isClosed = true) : g.close s = .ok s := by
  have hsettle : settle g.closeStep (g.closeFuel s) s = .ok (s, 1) := by
    rw [closeFuel, settle, hclosed.closeStep_eq wf hs hvalid]
    rfl
  rw [close, hsettle]
  exact congrArg Except.ok (by rw [← hmark])

variable {s t : ItemSet} (hs : s.Distinct) (hvalid : ∀ c, s.Has c → g.Valid c) (ht : g.close s = .ok t)
include hs hvalid ht

/-- What a computed closure holds. -/
lemma close_eq_ok : t.Distinct ∧ (∀ c, t.HasKernel c ↔ s.HasKernel c) ∧
    (∀ c, t.Has c ↔ s.Has c ∨ ∃ x, g.Closes s.Has s.Looks c x) ∧
    ∀ c x, t.Looks c x ↔ g.Closes s.Has s.Looks c x := by
  obtain ⟨t', ht', hspec⟩ := exists_close_eq_ok wf hs hvalid
  obtain rfl := Except.ok.inj (ht.symm.trans ht')
  exact hspec

/-- The cores of a computed closure are valid. -/
lemma valid_of_close : ∀ c, t.Has c → g.Valid c := by
  obtain ⟨-, -, hhas, -⟩ := close_eq_ok wf hs hvalid ht
  intro c hc
  rcases (hhas c).1 hc with hc | ⟨x, hx⟩
  · exact hvalid c hc
  · exact (hx.reaches fun _ _ hl => hl.has).valid hvalid

/-- A computed closure is closed. -/
lemma isClosed_close : g.IsClosed t := by
  obtain ⟨hdistinct, -, hhas, hlooks⟩ := close_eq_ok wf hs hvalid ht
  refine (isClosed_iff wf hdistinct).2 fun c n rest x hc ho hx => (hlooks _ _).2 ?_
  rcases hx with hx | ⟨hnull, hx⟩
  · rcases (hhas c).1 hc with hc | ⟨y, hy⟩
    · exact .begin hc ho hx
    · exact .expand hy ho (Or.inl hx)
  · exact .expand ((hlooks c x).1 hx) ho (leads_self hnull x)

/-- A computed closure lies within every closed set that the given set lies within. -/
lemma within_of_close {u : ItemSet} (hu : u.Distinct) (hclosed : g.IsClosed u) (hsu : s.Within u) : t.Within u := by
  obtain ⟨-, -, hhas, hlooks⟩ := close_eq_ok wf hs hvalid ht
  obtain ⟨hsuhas, hsulooks⟩ := (ItemSet.within_iff hu).1 hsu
  have hfollows {c : Core} {x : Symbol} (hx : g.Closes s.Has s.Looks c x) : u.Looks c x :=
    hclosed.looks_of_closes wf hu hsuhas hsulooks hx
  refine (ItemSet.within_iff hu).2 ⟨fun c hc => ?_, fun c x hx => hfollows ((hlooks c x).1 hx)⟩
  rcases (hhas c).1 hc with hc | ⟨x, hx⟩
  · exact hsuhas c hc
  · exact (hfollows hx).has

/-- The items of a computed closure do not depend on the order of the given items. -/
lemma exists_close_of_perm {s' : ItemSet} (hperm : s'.items.Perm s.items) :
    ∃ t', g.close s' = .ok t' ∧ ∀ c, t'.get? c = t.get? c := by
  -- both sets hold the same
  have hhas : s'.Has = s.Has := by
    funext c
    exact propext (exists_congr fun i => and_congr_left fun _ => hperm.mem_iff)
  have hlooks : s'.Looks = s.Looks := by
    funext c x
    exact propext (exists_congr fun i => and_congr_left fun _ => hperm.mem_iff)
  have hkernel (c : Core) : s'.HasKernel c ↔ s.HasKernel c :=
    exists_congr fun i => and_congr_left fun _ => hperm.mem_iff
  obtain ⟨t', ht', hdistinct', hkernel', hhas', hlooks'⟩ :=
    exists_close_eq_ok wf ((hperm.map Item.core).nodup_iff.2 hs) fun c hc => hvalid c (hhas ▸ hc)
  obtain ⟨hdistinct, hkernel'', hhas'', hlooks''⟩ := close_eq_ok wf hs hvalid ht
  simp only [hhas, hlooks] at hhas' hlooks'
  refine ⟨t', ht', ItemSet.get?_eq_get? hdistinct' hdistinct (fun c => ?_) (fun c => ?_) fun c x => ?_⟩
  · exact (hhas' c).trans (hhas'' c).symm
  · exact (hkernel' c).trans ((hkernel c).trans (hkernel'' c).symm)
  · exact (hlooks' c x).trans (hlooks'' c x).symm

end

/-- The closure of a set of valid items succeeds.  It leaves the items in their places, it is closed, it lies within
every closed set that the given set lies within, and closing it again gives it back.  However the given items are
ordered, the same items are found in the closure. -/
theorem close_gives_least_closed {grammar : Grammar} (haugment : grammar.augment = .ok g) {s : ItemSet}
    (hs : s.Distinct) (hvalid : ∀ c, s.Has c → g.Valid c) :
    ∃ t, g.close s = .ok t ∧ s.Grows t ∧ g.IsClosed t ∧
      (∀ u : ItemSet, u.Distinct → g.IsClosed u → s.Within u → t.Within u) ∧
      g.close t = .ok t ∧
      ∀ s' : ItemSet, s'.items.Perm s.items → ∃ t', g.close s' = .ok t' ∧ ∀ c, t'.get? c = t.get? c := by
  have wf := Grammar.wellFormed_of_augment haugment
  obtain ⟨t, ht, hdistinct, -⟩ := exists_close_eq_ok wf hs hvalid
  have hclosed : g.IsClosed t := isClosed_close wf hs hvalid ht
  have hagain : g.close t = .ok t :=
    hclosed.close_eq_self wf hdistinct (valid_of_close wf hs hvalid ht) (isClosed_of_close ht)
  refine ⟨t, ht, grows_close ht, hclosed, ?_, hagain, ?_⟩
  · intro u hu huclosed hsu
    exact within_of_close wf hs hvalid ht hu huclosed hsu
  · intro s' hperm
    exact exists_close_of_perm wf hs hvalid ht hperm

/-- At the beginning of the input and inside of a pair a pair may follow.  In either order, closing the two items
brings the empty pair with the end of input from the first one and the closing bracket from the other. -/
theorem close_gives_least_closed_nested :
    ∃ g t t', Grammar.nested.augment = .ok g ∧
      g.close { items := [⟨⟨0, 0⟩, true, {Symbol.eof}⟩, ⟨⟨1, 1⟩, true, ∅⟩] } = .ok t ∧
      g.close { items := [⟨⟨1, 1⟩, true, ∅⟩, ⟨⟨0, 0⟩, true, {Symbol.eof}⟩] } = .ok t' ∧
      t.get? ⟨2, 0⟩ = some ⟨⟨2, 0⟩, false, {Symbol.eof, ⟨11⟩}⟩ ∧ t'.get? ⟨2, 0⟩ = t.get? ⟨2, 0⟩ ∧
      g.IsClosed t ∧ g.close t = .ok t := by
  have hrun : (do
      let g ← Grammar.nested.augment.toOption
      let t ← (g.close { items := [⟨⟨0, 0⟩, true, {Symbol.eof}⟩, ⟨⟨1, 1⟩, true, ∅⟩] }).toOption
      some (g.rules[0]?, g.rules[1]?, t.get? ⟨2, 0⟩)) =
      some (some ⟨0, ⟨0⟩, [⟨1⟩]⟩, some ⟨1, ⟨1⟩, [⟨10⟩, ⟨1⟩, ⟨11⟩]⟩,
        some ⟨⟨2, 0⟩, false, {Symbol.eof, ⟨11⟩}⟩) := by decide +kernel
  obtain ⟨g, hg, hrun⟩ := Option.bind_eq_some_iff.1 hrun
  obtain ⟨t, ht, hrun⟩ := Option.bind_eq_some_iff.1 hrun
  obtain ⟨hfirst, hrun⟩ := Prod.mk.inj (Option.some.inj hrun)
  obtain ⟨hsecond, hfound⟩ := Prod.mk.inj hrun
  rw [toOption_eq_some_iff] at hg ht
  have hdistinct : ItemSet.Distinct { items := [⟨⟨0, 0⟩, true, {Symbol.eof}⟩, ⟨⟨1, 1⟩, true, ∅⟩] } := by
    unfold ItemSet.Distinct
    decide
  have hvalid : ∀ c, ItemSet.Has { items := [⟨⟨0, 0⟩, true, {Symbol.eof}⟩, ⟨⟨1, 1⟩, true, ∅⟩] } c → g.Valid c := by
    rintro c ⟨i, hi, rfl⟩
    rcases List.mem_pair.1 hi with rfl | rfl
    · exact ⟨_, hfirst, by decide⟩
    · exact ⟨_, hsecond, by decide⟩
  obtain ⟨u, hu, -, hclosed, -, hagain, horder⟩ := close_gives_least_closed hg hdistinct hvalid
  obtain rfl := Except.ok.inj (ht.symm.trans hu)
  obtain ⟨t', ht', hsame⟩ := horder { items := [⟨⟨1, 1⟩, true, ∅⟩, ⟨⟨0, 0⟩, true, {Symbol.eof}⟩] } (.swap _ _ _)
  exact ⟨g, t, t', hg, ht, ht', hfound, hsame _, hclosed, hagain⟩

end Augmented

end Lalr
