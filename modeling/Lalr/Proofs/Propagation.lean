import Lalr.Automaton.Lookahead
import Lalr.Proofs.Exploration

/-!
# Propagation of lookaheads

A kernel core *hands on* a lookahead to a core of a following state in two ways.  Some lookaheads arise in
the closure of the kernel core alone (`Arises`), and where the placeholder arrives its own lookaheads
follow (`Links`).  `Carried` is the least assignment of lookaheads to sites that has the end of input at the
augmenting rule, has what is generated, and is closed under links.

The computed transfers are these two relations (`exists_transfers_eq_ok`), and carrying lookaheads along the
links until nothing grows gives `Carried` (`exists_propagate_eq_ok`).  The fuel of the propagation counts, for
each link, the lookaheads that its target can take in.
-/

namespace Lalr

namespace Lookaheads

/-! ### Maps of lookaheads -/

/-- Adding lookaheads at a site adds them there and nowhere else. -/
lemma mem_get_add {m : Lookaheads} {site site' : Site} {set : SymbolSet} {x : Symbol} :
    x ∈ get (add m site set) site' ↔ x ∈ get m site' ∨ site' = site ∧ x ∈ set := by
  unfold get add
  rw [Std.ExtTreeMap.getD_insert]
  by_cases h : compare site site' = .eq
  · obtain rfl := Std.LawfulEqOrd.eq_of_compare h
    rw [if_pos h, Std.ExtTreeSet.mem_union_iff]
    simp [get]
  · have hne : site' ≠ site := fun heq => h (heq ▸ Std.ReflOrd.compare_self)
    rw [if_neg h]
    simp [hne]

/-- The empty map has no lookaheads. -/
lemma not_mem_get_empty {site : Site} {x : Symbol} : x ∉ get ∅ site := by
  unfold get
  rw [Std.ExtTreeMap.getD_empty]
  exact Std.ExtTreeSet.not_mem_empty

/-- The lookaheads before any are carried along. -/
lemma mem_get_ofTransfers {transfers : List Transfer} {site : Site} {x : Symbol} :
    x ∈ get (ofTransfers transfers) site ↔
      site = ⟨0, ⟨0, 0⟩⟩ ∧ x = Symbol.eof ∨ ∃ t ∈ transfers, t.target = site ∧ x ∈ t.generated := by
  unfold ofTransfers
  have hfold : ∀ (ts : List Transfer) (m : Lookaheads),
      x ∈ get (ts.foldl (fun m t => add m t.target t.generated) m) site ↔
        x ∈ get m site ∨ ∃ t ∈ ts, t.target = site ∧ x ∈ t.generated := by
    intro ts
    induction ts with
    | nil => simp
    | cons t ts ih =>
      intro m
      rw [List.foldl_cons, ih, mem_get_add, List.exists_mem_cons_iff, or_assoc, eq_comm (a := site)]
  rw [hfold, mem_get_add]
  refine or_congr_left ?_
  rw [SymbolSet.mem_singleton]
  exact or_iff_right not_mem_get_empty

/-- The lookaheads of a map, with repetitions. -/
def pool (m : Lookaheads) : List Symbol :=
  m.toList.flatMap fun entry => entry.2.toList

/-- A lookahead at a site is listed. -/
lemma mem_pool {m : Lookaheads} {site : Site} {x : Symbol} (h : x ∈ get m site) : x ∈ pool m := by
  unfold get at h
  rw [Std.ExtTreeMap.getD_eq_getD_getElem?] at h
  cases hget : m[site]? with
  | none =>
    rw [hget] at h
    exact absurd h Std.ExtTreeSet.not_mem_empty
  | some set =>
    rw [hget] at h
    refine List.mem_flatMap.2 ⟨(site, set), Std.ExtTreeMap.mem_toList_iff_getElem?_eq_some.2 hget, ?_⟩
    exact Std.ExtTreeSet.mem_toList.2 h

/-- The number of lookaheads is the length of the list. -/
lemma total_eq (m : Lookaheads) : total m = (pool m).length := by
  unfold total pool
  rw [SymbolSet.foldl_size_eq fun entry : Site × SymbolSet => entry.2, Nat.zero_add]

/-! ### Carrying lookaheads along links -/

/-- The lookaheads that links carry, from those that are there at first. -/
inductive Spreads (links : List Link) (m : Lookaheads) : Site → Symbol → Prop
  /-- The first lookaheads are there. -/
  | given {site : Site} {x : Symbol} (h : x ∈ get m site) : Spreads links m site x
  /-- A link carries a lookahead to its target. -/
  | link {source target : Site} {x : Symbol} (h : Spreads links m source x)
      (hl : (source, target) ∈ links) : Spreads links m target x

/-- More links, from lookaheads that are carried already, carry what these links carry. -/
lemma Spreads.trans {links links' : List Link} {m m' : Lookaheads} (hlinks : links ⊆ links')
    (hm : ∀ site x, x ∈ get m site → Spreads links' m' site x) {site : Site} {x : Symbol}
    (h : Spreads links m site x) : Spreads links' m' site x := by
  induction h with
  | given h => exact hm _ _ h
  | link _ hl ih => exact .link ih (hlinks hl)

/-- The lookaheads at the targets of links, counted link by link. -/
def weight : List Link → Lookaheads → Nat
  | [], _ => 0
  | link :: links, m => (get m link.2).size + weight links m

/-- The sets of one map are included in those of the other. -/
def Below (m m' : Lookaheads) : Prop :=
  ∀ site x, x ∈ get m site → x ∈ get m' site

/-- A larger map has larger sets. -/
lemma Below.size_le {m m' : Lookaheads} (h : Below m m') (site : Site) :
    (get m site).size ≤ (get m' site).size := by
  rw [← SymbolSet.card_toFinset, ← SymbolSet.card_toFinset]
  refine Finset.card_le_card fun x hx => ?_
  exact SymbolSet.mem_toFinset.2 (h site x (SymbolSet.mem_toFinset.1 hx))

/-- A larger map has a larger weight. -/
lemma Below.weight_le {m m' : Lookaheads} (h : Below m m') (links : List Link) :
    weight links m ≤ weight links m' := by
  induction links with
  | nil => exact le_rfl
  | cons link links ih => exact Nat.add_le_add (h.size_le link.2) ih

/-- A larger map with something new at the target of a link has a strictly larger weight. -/
lemma Below.weight_lt {m m' : Lookaheads} (h : Below m m') {links : List Link} {link : Link}
    (hlink : link ∈ links) {x : Symbol} (hx : x ∈ get m' link.2) (hnew : x ∉ get m link.2) :
    weight links m < weight links m' := by
  have hlt : (get m link.2).size < (get m' link.2).size := by
    rw [← SymbolSet.card_toFinset, ← SymbolSet.card_toFinset]
    refine Finset.card_lt_card ⟨fun y hy => ?_, fun hsub => hnew ?_⟩
    · exact SymbolSet.mem_toFinset.2 (h _ y (SymbolSet.mem_toFinset.1 hy))
    · exact SymbolSet.mem_toFinset.1 (hsub (SymbolSet.mem_toFinset.2 hx))
  induction links with
  | nil => cases hlink
  | cons other links ih =>
    rw [weight, weight]
    rcases List.mem_cons.1 hlink with rfl | hlink
    · exact Nat.add_lt_add_of_lt_of_le hlt (h.weight_le links)
    · exact Nat.add_lt_add_of_le_of_lt (h.size_le other.2) (ih hlink)

/-- What one pass along links does: nothing is lost, something is new at a target when a change is reported,
what is there has been carried by a link, and without a change every link has carried all it can. -/
lemma pass_spec (links : List Link) (m : Lookaheads) :
    Below m (pass links m).1 ∧
      (∀ site x, x ∈ get (pass links m).1 site → Spreads links m site x) ∧
      ((pass links m).2 = true → ∃ link ∈ links, ∃ x ∈ get (pass links m).1 link.2, x ∉ get m link.2) ∧
      ((pass links m).2 = false → (pass links m).1 = m ∧
        ∀ link ∈ links, ∀ x ∈ get m link.1, x ∈ get m link.2) := by
  unfold pass
  induction links using List.reverseRecOn with
  | nil => exact ⟨fun _ _ => id, fun _ _ => .given, nofun, fun _ => ⟨rfl, nofun⟩⟩
  | append_singleton links link ih =>
    rw [List.foldl_append, List.foldl_cons, List.foldl_nil]
    rcases hpass : links.foldl carry (m, false) with ⟨m', changed⟩
    rw [hpass] at ih
    obtain ⟨hbelow, hspreads, hchanged, hunchanged⟩ := ih
    have hspreads' (site : Site) (x : Symbol) (hx : x ∈ get m' site) :
        Spreads (links ++ [link]) m site x :=
      (hspreads site x hx).trans (List.subset_append_left _ _) fun _ _ => .given
    unfold carry
    by_cases hsub : SymbolSet.subset (get m' link.1) (get m' link.2) = true
    · simp only [hsub, if_true]
      refine ⟨hbelow, hspreads', fun h => ?_, fun h => ?_⟩
      · obtain ⟨l, hl, x, hx, hnew⟩ := hchanged h
        exact ⟨l, List.mem_append_left _ hl, x, hx, hnew⟩
      · obtain ⟨rfl, hall⟩ := hunchanged h
        refine ⟨rfl, List.forall_mem_append.2 ⟨hall, ?_⟩⟩
        exact List.forall_mem_singleton.2 (SymbolSet.subset_iff.1 hsub)
    · simp only [hsub, Bool.false_eq_true, if_false]
      refine ⟨fun site x hx => mem_get_add.2 (Or.inl (hbelow site x hx)), fun site x hx => ?_, fun _ => ?_,
        nofun⟩
      · rcases mem_get_add.1 hx with hx | ⟨rfl, hcarried⟩
        · exact hspreads' site x hx
        · exact .link (hspreads' link.1 x hcarried) (by simp)
      · rw [SymbolSet.subset_iff] at hsub
        push Not at hsub
        obtain ⟨x, hx, hnew⟩ := hsub
        refine ⟨link, by simp, x, mem_get_add.2 (Or.inr ⟨rfl, hx⟩), fun hold => hnew ?_⟩
        exact hbelow _ x hold

/-- A lookahead that is carried anywhere is one of the first lookaheads. -/
lemma Spreads.mem_pool {links : List Link} {m : Lookaheads} {site : Site} {x : Symbol}
    (h : Spreads links m site x) : x ∈ pool m := by
  induction h with
  | given h => exact Lookaheads.mem_pool h
  | link _ _ ih => exact ih

/-- A map of carried lookaheads weighs no more than the fuel of the propagation foresees. -/
lemma weight_le {links : List Link} {m m' : Lookaheads}
    (h : ∀ site x, x ∈ get m' site → Spreads links m site x) (links' : List Link) :
    weight links' m' ≤ links'.length * total m := by
  induction links' with
  | nil => simp [weight]
  | cons link links' ih =>
    have hsize : (get m' link.2).size ≤ total m := by
      rw [total_eq, ← SymbolSet.card_toFinset]
      refine (Finset.card_le_card fun x hx => ?_).trans (pool m).toFinset_card_le
      exact List.mem_toFinset.2 (h _ x (SymbolSet.mem_toFinset.1 hx)).mem_pool
    rw [weight, List.length_cons, Nat.succ_mul]
    omega

/-- Carrying lookaheads along links until nothing grows succeeds, and gives what links carry. -/
lemma exists_propagate_eq_ok (links : List Link) (m : Lookaheads) :
    ∃ m' count, propagate links m = .ok (m', count) ∧
      ∀ site x, x ∈ get m' site ↔ Spreads links m site x := by
  set P : Lookaheads → Prop := fun a =>
    Below m a ∧ ∀ site x, x ∈ get a site → Spreads links m site x
  have hstep (a : Lookaheads) (ha : P a) : P (pass links a).1 := by
    obtain ⟨hbelow, hspreads, -⟩ := pass_spec links a
    refine ⟨fun site x hx => hbelow site x (ha.1 site x hx), fun site x hx => ?_⟩
    exact (hspreads site x hx).trans (List.Subset.refl _) ha.2
  have hm : P m := ⟨fun _ _ => id, fun _ _ => .given⟩
  obtain ⟨m', count, hsettle⟩ : ∃ m' count, propagate links m = .ok (m', count) := by
    refine exists_settle_eq_ok (P := P) (weight links) (links.length * total m) (fun a ha => ?_)
      (fun a ha => weight_le ha.2 links) hm (by omega)
    obtain ⟨hbelow, -, hchanged, -⟩ := pass_spec links a
    refine ⟨_, _, rfl, hstep a ha, fun h => ?_⟩
    obtain ⟨link, hlink, x, hx, hnew⟩ := hchanged h
    exact hbelow.weight_lt hlink hx hnew
  refine ⟨m', count, hsettle, fun site x => ?_⟩
  -- before the last pass every link had carried all it can
  obtain ⟨a, ha, hlast⟩ := exists_last_of_settle (P := P)
    (fun a b changed ha hb => by
      have hb := (Prod.mk.inj (Except.ok.inj hb)).1
      exact hb ▸ hstep a ha) hm hsettle
  obtain ⟨hfst, hsnd⟩ := Prod.mk.inj (Except.ok.inj hlast)
  obtain ⟨heq, hclosed⟩ := (pass_spec links a).2.2.2 hsnd
  obtain rfl : m' = a := hfst.symm.trans heq
  refine ⟨ha.2 site x, fun h => ?_⟩
  induction h with
  | given h => exact ha.1 _ _ h
  | link _ hl ih => exact hclosed _ hl _ ih

end Lookaheads

/-! ### What kernel cores hand on -/

namespace Automaton

/-- The lookahead `x` arises at the target in the closure of a kernel core of a state that leads there. -/
def Arises (g : Augmented) (a : Automaton) (target : Site) (x : Symbol) : Prop :=
  ∃ n k c y rest m, KernelAt a.states n k ∧ g.Probes k c x ∧ x ≠ Symbol.placeholder ∧
    g.Marks c y rest ∧ a.goto? n y = some m ∧ target = ⟨m, c.advance⟩

/-- The placeholder travels from the kernel core of the source to the target. -/
def Links (g : Augmented) (a : Automaton) (source target : Site) : Prop :=
  KernelAt a.states source.state source.core ∧ ∃ c y rest m,
    g.Probes source.core c Symbol.placeholder ∧ g.Marks c y rest ∧
      a.goto? source.state y = some m ∧ target = ⟨m, c.advance⟩

/-- The lookaheads of the kernel cores: the end of input at the augmenting rule, what arises in closures,
and what links carry. -/
inductive Carried (g : Augmented) (a : Automaton) : Site → Symbol → Prop
  /-- The end of input follows the augmenting rule. -/
  | start : Carried g a ⟨0, ⟨0, 0⟩⟩ Symbol.eof
  /-- A lookahead arises in a closure. -/
  | arises {target : Site} {x : Symbol} (h : a.Arises g target x) : Carried g a target x
  /-- A link carries a lookahead. -/
  | link {source target : Site} {x : Symbol} (h : Carried g a source x)
      (hl : a.Links g source target) : Carried g a target x

variable {g : Augmented} {a : Automaton}

/-- The kernel items are listed state by state. -/
lemma mem_kernelSites {site : Site} :
    site ∈ a.kernelSites ↔ KernelAt a.states site.state site.core := by
  unfold kernelSites KernelAt
  rw [List.mem_flatMap]
  constructor
  · rintro ⟨⟨s, n⟩, hs, hsite⟩
    obtain ⟨i, hi, rfl⟩ := List.mem_map.1 hsite
    rw [List.mk_mem_zipIdx_iff_getElem?, Array.getElem?_toList] at hs
    exact ⟨s, hs, ItemSet.mem_kernel_map.1 (List.mem_map.2 ⟨i, hi, rfl⟩)⟩
  · rintro ⟨s, hs, hcore⟩
    obtain ⟨i, hi, hic⟩ := List.mem_map.1 (ItemSet.mem_kernel_map.2 hcore)
    refine ⟨(s, site.state), ?_, List.mem_map.2 ⟨i, hi, ?_⟩⟩
    · rw [List.mk_mem_zipIdx_iff_getElem?, Array.getElem?_toList]
      exact hs
    · rw [hic]

section

variable (wf : g.WellFormed) (ha : a.Explored g)
include wf ha

omit wf in
/-- The symbol after the dot of a core that a state reaches leads to a state with an item for the core with the dot
moved. -/
lemma exists_goto_item_eq_ok {n : Nat} {c : Core} {x : Symbol} {rest : Body}
    (hc : g.Reaches (KernelAt a.states n) c) (hm : g.Marks c x rest) :
    ∃ m i, a.goto? n x = some m ∧ a.goto n x = .ok m ∧ a.item m c.advance = .ok i ∧ i.core = c.advance := by
  obtain ⟨m, hgoto⟩ := ha.exists_target ⟨c, rest, hc, hm⟩
  obtain ⟨s, hs, hkernel⟩ := ((ha.target hgoto).2.2.2 c.advance).2 ⟨c, rest, hc, hm, rfl⟩
  obtain ⟨i, hi⟩ : ∃ i, s.get? c.advance = some i := by
    refine Option.ne_none_iff_exists'.1 fun hnone => ?_
    exact ItemSet.get?_eq_none.1 hnone hkernel.has
  exact ⟨m, i, hgoto, by simp [goto, hgoto], by simp [item, hs, hi], (ItemSet.get?_eq_some hi).2⟩

omit wf in
/-- What an item of the closure of a kernel core hands on. -/
lemma exists_transferOf_eq_ok (source : Site) {i : Item}
    (hi : g.Reaches (KernelAt a.states source.state) i.core) :
    ∃ t?, g.transferOf a source i = .ok t? ∧
      ∀ t, t? = some t ↔ ∃ y rest m, g.Marks i.core y rest ∧ a.goto? source.state y = some m ∧
        t = ⟨source, ⟨m, i.core.advance⟩, i.lookaheads.erase Symbol.placeholder,
          i.lookaheads.contains Symbol.placeholder⟩ := by
  obtain ⟨marked, hmarked, hiff⟩ :=
    Augmented.exists_marked?_eq_ok (hi.valid fun _ hc => ha.valid hc)
  unfold Augmented.transferOf
  rw [hmarked]
  cases marked with
  | none =>
    refine ⟨none, rfl, fun t => ⟨nofun, ?_⟩⟩
    rintro ⟨y, rest, m, hm, -⟩
    exact absurd ((hiff y).2 ⟨rest, hm⟩) nofun
  | some y =>
    obtain ⟨rest, hm⟩ := (hiff y).1 rfl
    obtain ⟨m, j, hgoto, htarget, hitem, -⟩ := exists_goto_item_eq_ok ha hi hm
    refine ⟨_, by simp only [bind, Except.bind, htarget, hitem]; rfl, fun t => ?_⟩
    constructor
    · intro ht
      exact ⟨y, rest, m, hm, hgoto, (Option.some.inj ht).symm⟩
    · rintro ⟨y', rest', m', hm', hgoto', rfl⟩
      obtain ⟨rfl, rfl⟩ := hm.unique hm'
      obtain rfl := Option.some.inj (hgoto.symm.trans hgoto')
      rfl

/-- The closure of a kernel core alone, with the placeholder for its lookahead, is found and does not leave what its
state reaches. -/
lemma exists_probe_eq_ok (source : Site) (hsource : KernelAt a.states source.state source.core) :
    ∃ probe, g.close (ItemSet.ofList [⟨source.core, true, {Symbol.placeholder}⟩]) = .ok probe ∧
      (∀ i ∈ probe.items, g.Reaches (KernelAt a.states source.state) i.core) ∧
      ∀ c x, probe.Looks c x ↔ g.Probes source.core c x := by
  set seed := ItemSet.ofList [⟨source.core, true, {Symbol.placeholder}⟩] with hseed
  have hhas : seed.Has = fun c => c = source.core := by
    funext c
    rw [hseed, ItemSet.has_ofList]
    simp [eq_comm]
  have hlooks : seed.Looks = fun c x => c = source.core ∧ x = Symbol.placeholder := by
    funext c x
    rw [hseed, ItemSet.looks_ofList]
    simp only [List.mem_singleton, exists_eq_left, SymbolSet.mem_singleton, eq_comm]
  obtain ⟨probe, hprobe, -, -, hprobeHas, hprobeLooks⟩ := Augmented.exists_close_eq_ok wf
    (ItemSet.distinct_ofList _) (s := seed) fun c hc => by
      rw [hhas] at hc
      exact hc ▸ ha.valid hsource
  rw [hhas, hlooks] at hprobeHas hprobeLooks
  refine ⟨probe, hprobe, fun i hi => ?_, hprobeLooks⟩
  have hkernel : ∀ c, c = source.core → g.Reaches (KernelAt a.states source.state) c := by
    rintro c rfl
    exact .kernel hsource
  rcases (hprobeHas i.core).1 ⟨i, hi, rfl⟩ with hc | ⟨x, hx⟩
  · exact hkernel _ hc
  · exact .trans hkernel (Augmented.Probes.reaches hx)

/-- What a kernel core hands on. -/
lemma exists_transfersFrom_eq_ok (source : Site) (hsource : KernelAt a.states source.state source.core) :
    ∃ ts, g.transfersFrom a source = .ok ts ∧
      (∀ t ∈ ts, t.source = source) ∧
      (∀ target x, (∃ t ∈ ts, t.target = target ∧ x ∈ t.generated) ↔
        ∃ c y rest m, g.Probes source.core c x ∧ x ≠ Symbol.placeholder ∧ g.Marks c y rest ∧
          a.goto? source.state y = some m ∧ target = ⟨m, c.advance⟩) ∧
      ∀ target, (∃ t ∈ ts, t.target = target ∧ t.propagates = true) ↔
        ∃ c y rest m, g.Probes source.core c Symbol.placeholder ∧ g.Marks c y rest ∧
          a.goto? source.state y = some m ∧ target = ⟨m, c.advance⟩ := by
  obtain ⟨probe, hprobe, hreaches, hprobeLooks⟩ := exists_probe_eq_ok wf ha source hsource
  obtain ⟨ts?, hts?, hof, hto⟩ := exists_mapM_eq_ok_and fun i hi =>
    exists_transferOf_eq_ok ha source (hreaches i hi)
  have hmem (t : Transfer) : t ∈ ts?.filterMap id ↔ ∃ i ∈ probe.items, ∃ y rest m,
      g.Marks i.core y rest ∧ a.goto? source.state y = some m ∧
        t = ⟨source, ⟨m, i.core.advance⟩, i.lookaheads.erase Symbol.placeholder,
          i.lookaheads.contains Symbol.placeholder⟩ := by
    rw [List.mem_filterMap]
    constructor
    · rintro ⟨t?, ht?, rfl⟩
      obtain ⟨i, hi, hiff⟩ := hof _ ht?
      exact ⟨i, hi, (hiff t).1 rfl⟩
    · rintro ⟨i, hi, ht⟩
      obtain ⟨t?, ht?, hiff⟩ := hto i hi
      exact ⟨t?, ht?, (hiff t).2 ht⟩
  refine ⟨ts?.filterMap id, by rw [Augmented.transfersFrom, hprobe]; simp only [bind, Except.bind, hts?],
    fun t ht => ?_, fun target x => ⟨?_, ?_⟩, fun target => ⟨?_, ?_⟩⟩
  · obtain ⟨i, -, y, rest, m, -, -, rfl⟩ := (hmem t).1 ht
    rfl
  · rintro ⟨t, ht, rfl, hx⟩
    obtain ⟨i, hi, y, rest, m, hm, hgoto, rfl⟩ := (hmem t).1 ht
    rw [Std.ExtTreeSet.mem_erase] at hx
    refine ⟨i.core, y, rest, m, (hprobeLooks _ _).1 ⟨i, hi, rfl, hx.2⟩, ?_, hm, hgoto, rfl⟩
    rintro rfl
    exact hx.1 Std.ReflOrd.compare_self
  · rintro ⟨c, y, rest, m, hx, hne, hm, hgoto, rfl⟩
    obtain ⟨i, hi, rfl, hmem'⟩ := (hprobeLooks _ _).2 hx
    refine ⟨_, (hmem _).2 ⟨i, hi, y, rest, m, hm, hgoto, rfl⟩, rfl, ?_⟩
    rw [Std.ExtTreeSet.mem_erase]
    exact ⟨fun heq => hne (Std.LawfulEqOrd.eq_of_compare heq).symm, hmem'⟩
  · rintro ⟨t, ht, rfl, hpropagates⟩
    obtain ⟨i, hi, y, rest, m, hm, hgoto, rfl⟩ := (hmem t).1 ht
    exact ⟨i.core, y, rest, m, (hprobeLooks _ _).1 ⟨i, hi, rfl, hpropagates⟩, hm, hgoto, rfl⟩
  · rintro ⟨c, y, rest, m, hx, hm, hgoto, rfl⟩
    obtain ⟨i, hi, rfl, hmem'⟩ := (hprobeLooks _ _).2 hx
    exact ⟨_, (hmem _).2 ⟨i, hi, y, rest, m, hm, hgoto, rfl⟩, rfl, hmem'⟩

/-- The transfers are found.  They generate what arises in closures, and their links are those along which the
placeholder travels. -/
lemma exists_transfers_eq_ok :
    ∃ ts, g.transfers a = .ok ts ∧
      (∀ target x, (∃ t ∈ ts, t.target = target ∧ x ∈ t.generated) ↔ a.Arises g target x) ∧
      ∀ source target, (source, target) ∈ linksOf ts ↔ a.Links g source target := by
  obtain ⟨tss, htss, hof, hto⟩ := exists_mapM_eq_ok_and fun source hsource =>
    exists_transfersFrom_eq_ok wf ha source (mem_kernelSites.1 hsource)
  refine ⟨tss.flatten, by rw [Augmented.transfers, htss]; rfl, fun target x => ⟨?_, ?_⟩,
    fun source target => ⟨?_, ?_⟩⟩
  · rintro ⟨t, ht, htarget, hx⟩
    obtain ⟨ts, hts, ht⟩ := List.mem_flatten.1 ht
    obtain ⟨source, hsource, -, hgenerated, -⟩ := hof ts hts
    obtain ⟨c, y, rest, m, h⟩ := (hgenerated target x).1 ⟨t, ht, htarget, hx⟩
    exact ⟨source.state, source.core, c, y, rest, m, mem_kernelSites.1 hsource, h⟩
  · rintro ⟨n, k, c, y, rest, m, hk, h⟩
    obtain ⟨ts, hts, -, hgenerated, -⟩ := hto ⟨n, k⟩ (mem_kernelSites.2 hk)
    obtain ⟨t, ht, htarget, hx⟩ := (hgenerated target x).2 ⟨c, y, rest, m, h⟩
    exact ⟨t, List.mem_flatten.2 ⟨ts, hts, ht⟩, htarget, hx⟩
  · intro hlink
    unfold linksOf at hlink
    obtain ⟨t, ht, heq⟩ := List.mem_map.1 hlink
    obtain ⟨ht, hpropagates⟩ := List.mem_filter.1 ht
    obtain ⟨rfl, rfl⟩ := Prod.mk.inj heq
    obtain ⟨ts, hts, ht⟩ := List.mem_flatten.1 ht
    obtain ⟨source, hsource, hall, -, hpropagated⟩ := hof ts hts
    rw [hall t ht]
    exact ⟨mem_kernelSites.1 hsource, (hpropagated t.target).1 ⟨t, ht, rfl, hpropagates⟩⟩
  · rintro ⟨hsource, h⟩
    obtain ⟨ts, hts, hall, -, hpropagated⟩ := hto source (mem_kernelSites.2 hsource)
    obtain ⟨t, ht, htarget, hpropagates⟩ := (hpropagated target).2 h
    refine List.mem_map.2 ⟨t, List.mem_filter.2 ⟨List.mem_flatten.2 ⟨ts, hts, ht⟩, hpropagates⟩, ?_⟩
    rw [hall t ht, htarget]

end

end Automaton

end Lalr
