import Lalr.Automaton
import Lalr.Proofs.Closure
import Mathlib.Data.Finset.Powerset

/-!
# The states of the automaton

Two states are linked by a symbol when moving the dot over it leads from the closure of one kernel to the
other kernel.  `Automaton.Explored` says this of an automaton as a whole: no two states have the same kernel,
the first state is that of the augmenting rule, the transitions are exactly the moves of the dot, and each
other state is entered from an earlier one.

The exploration visits states in the order of their numbers and enters the kernels that they lead to.  It
keeps a part of these facts for the states visited so far (`Exploration.Sound`).  It ends because a kernel is
a set of cores and the fuel is the number of such sets (`Exploration.Sound.size_le`).
-/

namespace Lalr

/-- Dropping repetitions leaves none. -/
lemma nodup_eraseDups {α : Type} [BEq α] [LawfulBEq α] (xs : List α) : xs.eraseDups.Nodup := by
  induction hn : xs.length using Nat.strong_induction_on generalizing xs with
  | _ n ih =>
    cases xs with
    | nil => simp
    | cons x xs =>
      subst hn
      rw [List.eraseDups_cons, List.nodup_cons, List.mem_eraseDups, List.mem_filter]
      refine ⟨by simp, ih _ (Nat.lt_succ_of_le ?_) _ rfl⟩
      exact List.length_filter_le _ xs

/-- A new last element is dropped if it is a repetition. -/
lemma eraseDups_concat {α : Type} [BEq α] [LawfulBEq α] (xs : List α) (x : α) :
    (xs ++ [x]).eraseDups = if x ∈ xs then xs.eraseDups else xs.eraseDups ++ [x] := by
  rw [List.eraseDups_append]
  split
  · simp_all [List.removeAll]
  · simp_all [List.removeAll, List.eraseDups_cons]

namespace Augmented

variable {g : Augmented}

/-! ### The nonterminals of a closure -/

/-- The symbol stands after the dot of a core that is reached. -/
def Meets (g : Augmented) (K : Core → Prop) (x : Symbol) : Prop :=
  ∃ c rest, g.Reaches K c ∧ g.Marks c x rest

/-- The symbol after the dot of a valid core is found, if there is one. -/
lemma exists_marked?_eq_ok {c : Core} (hc : g.Valid c) :
    ∃ m, c.marked? g.rules = .ok m ∧ ∀ x, m = some x ↔ ∃ rest, g.Marks c x rest := by
  obtain ⟨r, hr, -⟩ := hc
  refine ⟨r.rhs[c.dot]?, by simp [Core.marked?, Core.rule?, hr, bind, Except.bind], fun x => ⟨?_, ?_⟩⟩
  · exact fun hx => ⟨_, marks_of_getElem? hr hx⟩
  · rintro ⟨rest, hm⟩
    obtain ⟨r', hr', hx, -⟩ := hm.getElem?
    obtain rfl := Option.some.inj (hr.symm.trans hr')
    exact hx

/-- The nonterminals after the dots of valid cores are found, each once. -/
lemma exists_markedNonterminals_eq_ok (cores : List Core) (hcores : ∀ c ∈ cores, g.Valid c) :
    ∃ xs, g.markedNonterminals cores = .ok xs ∧ xs.Nodup ∧
      ∀ A, A ∈ xs ↔ g.kinds.IsNonterminal A ∧ ∃ c ∈ cores, ∃ rest, g.Marks c A rest := by
  obtain ⟨marked, hmarked, hof, hto⟩ := exists_mapM_eq_ok_and fun c hc => exists_marked?_eq_ok (hcores c hc)
  refine ⟨_, by rw [markedNonterminals, hmarked]; rfl, nodup_eraseDups _, fun A => ?_⟩
  rw [List.mem_eraseDups, List.mem_filter, isNonterminal_iff, List.mem_filterMap, and_comm]
  refine and_congr_right fun _ => ⟨?_, ?_⟩
  · rintro ⟨m, hm, rfl⟩
    obtain ⟨c, hc, hiff⟩ := hof _ hm
    exact ⟨c, hc, (hiff A).1 rfl⟩
  · rintro ⟨c, hc, hA⟩
    obtain ⟨m, hm, hiff⟩ := hto c hc
    exact ⟨m, hm, (hiff A).2 hA⟩

/-- The nonterminal `B` stands at the beginning of a rule of `A`. -/
def Heads (g : Augmented) (A B : Symbol) : Prop :=
  g.kinds.IsNonterminal B ∧ ∃ n ∈ g.rulesOf A, ∃ rest, g.Marks ⟨n, 0⟩ B rest

/-- The nonterminals found while some of them are pending: they are met by the kernel, and those that have
been seen to lead to others have all of these among them. -/
structure Following (g : Augmented) (K : Core → Prop) (seen pending : List Symbol) : Prop where
  nodup : (seen ++ pending).Nodup
  isNonterminal : ∀ A ∈ seen ++ pending, g.kinds.IsNonterminal A
  meets : ∀ A ∈ seen ++ pending, g.Meets K A
  closed : ∀ A ∈ seen, ∀ B, g.Heads A B → B ∈ seen ++ pending

variable (wf : g.WellFormed)
include wf

/-- The nonterminals that begin the rules of a nonterminal are found. -/
lemma exists_leading_eq_ok (A : Symbol) :
    ∃ xs, g.markedNonterminals ((g.rulesOf A).map fun n => ⟨n, 0⟩) = .ok xs ∧ xs.Nodup ∧
      ∀ B, B ∈ xs ↔ g.Heads A B := by
  obtain ⟨xs, hxs, hnodup, hmem⟩ := exists_markedNonterminals_eq_ok
    ((g.rulesOf A).map fun n => ⟨n, 0⟩) fun c hc => by
      obtain ⟨n, hn, rfl⟩ := List.mem_map.1 hc
      obtain ⟨r, hr, -⟩ := wf.mem_rulesOf.1 hn
      exact ⟨r, hr, Nat.zero_le _⟩
  refine ⟨xs, hxs, hnodup, fun B => ?_⟩
  rw [hmem, Heads]
  simp

omit wf in
/-- There are no more nonterminals to be found than there are symbols. -/
lemma Following.length_le {K : Core → Prop} {seen pending : List Symbol}
    (h : g.Following K seen pending) : seen.length + pending.length ≤ g.kinds.size := by
  have hsub : seen ++ pending ⊆ g.kinds.keys := fun B hB =>
    Std.ExtTreeMap.mem_keys.2 (Kinds.mem_iff_exists.2 ⟨.nonterminal, h.isNonterminal B hB⟩)
  have hle := (List.Nodup.subperm h.nodup hsub).length_le
  rwa [Std.ExtTreeMap.length_keys, List.length_append] at hle

/-- Looking at one pending nonterminal adds those that it leads to. -/
lemma Following.step {K : Core → Prop} {A : Symbol} {seen pending leading : List Symbol}
    (h : g.Following K seen (A :: pending)) (hnodup : leading.Nodup)
    (hmem : ∀ B, B ∈ leading ↔ g.Heads A B) :
    g.Following K (seen ++ [A])
      (pending ++ leading.filter fun B => !(seen ++ A :: pending).contains B) := by
  set fresh := leading.filter fun B => !(seen ++ A :: pending).contains B with hfresh
  have hmemFresh (B : Symbol) : B ∈ fresh ↔ g.Heads A B ∧ B ∉ seen ++ A :: pending := by
    rw [hfresh, List.mem_filter, hmem]
    simp
  have happend : (seen ++ [A]) ++ (pending ++ fresh) = seen ++ A :: pending ++ fresh := by simp
  constructor
  · rw [happend]
    refine List.nodup_append.2 ⟨h.nodup, hnodup.filter _, fun B hB C hC hBC => ?_⟩
    exact ((hmemFresh C).1 hC).2 (hBC ▸ hB)
  · rw [happend]
    exact List.forall_mem_append.2 ⟨h.isNonterminal, fun B hB => ((hmemFresh B).1 hB).1.1⟩
  · rw [happend]
    refine List.forall_mem_append.2 ⟨h.meets, fun B hB => ?_⟩
    obtain ⟨⟨-, n, hn, rest, hm⟩, -⟩ := (hmemFresh B).1 hB
    obtain ⟨c, rest', hc, hcm⟩ := h.meets A (by simp)
    exact ⟨⟨n, 0⟩, rest, .expand hc ((opens_iff wf).2 ⟨A, hcm, hn⟩), hm⟩
  · rw [happend]
    intro B hB C hC
    by_cases hin : C ∈ seen ++ A :: pending
    · exact List.mem_append_left _ hin
    rcases List.mem_append.1 hB with hB | hB
    · exact absurd (h.closed B hB C hC) hin
    · obtain rfl := List.mem_singleton.1 hB
      exact List.mem_append_right _ ((hmemFresh C).2 ⟨hC, hin⟩)

/-- Following the pending nonterminals succeeds, and keeps those found before. -/
lemma Following.exists_eq_ok {K : Core → Prop} {seen pending : List Symbol}
    (h : g.Following K seen pending) (fuel : Nat) (hfuel : g.kinds.size ≤ fuel + seen.length) :
    ∃ xs, g.followNonterminals fuel (seen ++ pending) pending = .ok xs ∧ g.Following K xs [] ∧
      ∀ A ∈ seen ++ pending, A ∈ xs := by
  induction fuel generalizing seen pending with
  | zero =>
    -- without fuel there is nothing pending
    have hle := h.length_le
    obtain rfl : pending = [] := List.eq_nil_of_length_eq_zero (by omega)
    exact ⟨seen, by simp [followNonterminals], h, by simp⟩
  | succ fuel ih =>
    cases pending with
    | nil => exact ⟨seen, by simp [followNonterminals], h, by simp⟩
    | cons A pending =>
      obtain ⟨leading, hleading, hnodup, hmem⟩ := exists_leading_eq_ok wf A
      obtain ⟨xs, hxs, hfollow, hsub⟩ := ih (h.step wf hnodup hmem) (by simp; omega)
      refine ⟨xs, ?_, hfollow, fun B hB => hsub B ?_⟩
      · rw [followNonterminals, hleading]
        simpa [bind, Except.bind] using hxs
      · simp only [List.mem_append, List.mem_cons] at hB ⊢
        tauto

/-- The nonterminals that a kernel of valid cores meets are found. -/
lemma exists_closureNonterminals_eq_ok {s : ItemSet} (hs : ∀ c, s.HasKernel c → g.Valid c) :
    ∃ xs, g.closureNonterminals s = .ok xs ∧
      ∀ A, A ∈ xs ↔ g.kinds.IsNonterminal A ∧ g.Meets s.HasKernel A := by
  obtain ⟨marked, hmarked, hnodup, hmem⟩ := exists_markedNonterminals_eq_ok
    (s.kernel.map Item.core) fun c hc => hs c (ItemSet.mem_kernel_map.1 hc)
  have hstart : g.Following s.HasKernel [] marked := by
    refine ⟨hnodup, fun A hA => ((hmem A).1 hA).1, fun A hA => ?_, by simp⟩
    obtain ⟨-, c, hc, rest, hm⟩ := (hmem A).1 hA
    exact ⟨c, rest, .kernel (ItemSet.mem_kernel_map.1 hc), hm⟩
  obtain ⟨xs, hxs, hfollow, hsub⟩ := hstart.exists_eq_ok wf g.kinds.size (Nat.le_add_right _ _)
  refine ⟨xs, by rw [closureNonterminals, hmarked]; exact hxs, fun A => ⟨fun hA => ?_, ?_⟩⟩
  · exact ⟨hfollow.isNonterminal A (by simpa using hA), hfollow.meets A (by simpa using hA)⟩
  rintro ⟨hA, c, rest, hc, hm⟩
  induction hc generalizing A rest with
  | @kernel c hc => exact hsub A ((hmem A).2 ⟨hA, c, ItemSet.mem_kernel_map.2 hc, rest, hm⟩)
  | @expand c n rest' hc ho ih =>
    obtain ⟨r, hr, hB⟩ := ho
    have hlhs : r.lhs ∈ xs := ih r.lhs (wf.isNonterminal_lhs hr) rest' hB
    simpa using hfollow.closed r.lhs hlhs A ⟨hA, n, wf.mem_rulesOf.2 ⟨r, hr, rfl⟩, rest, hm⟩

/-! ### The moves out of a state -/

/-- The cores with the dot moved over `x`. -/
def Moves (g : Augmented) (K : Core → Prop) (x : Symbol) (c : Core) : Prop :=
  ∃ d rest, g.Reaches K d ∧ g.Marks d x rest ∧ c = d.advance

/-- What is reached from a kernel is in the kernel or begins a rule of a nonterminal that the kernel meets. -/
lemma reaches_iff {K : Core → Prop} {c : Core} :
    g.Reaches K c ↔ K c ∨ ∃ A, g.kinds.IsNonterminal A ∧ g.Meets K A ∧ ∃ n ∈ g.rulesOf A, c = ⟨n, 0⟩ := by
  constructor
  · intro h
    cases h with
    | kernel h => exact Or.inl h
    | @expand d n rest h ho =>
      obtain ⟨r, hr, hm⟩ := ho
      exact Or.inr ⟨r.lhs, wf.isNonterminal_lhs hr, ⟨d, rest, h, hm⟩, n, wf.mem_rulesOf.2 ⟨r, hr, rfl⟩, rfl⟩
  · rintro (h | ⟨A, -, ⟨d, rest, hd, hm⟩, n, hn, rfl⟩)
    · exact .kernel h
    · exact .expand hd ((opens_iff wf).2 ⟨A, hm, hn⟩)

/-- The moves out of a kernel whose nonterminals have been found: each symbol that the kernel meets stands
once, with the cores that moving the dot over it gives. -/
lemma exists_moves_eq_ok {s : ItemSet} {xs : List Symbol} (hs : ∀ c, s.HasKernel c → g.Valid c)
    (hxs : s.nonterminals = some xs)
    (hmem : ∀ A, A ∈ xs ↔ g.kinds.IsNonterminal A ∧ g.Meets s.HasKernel A) :
    ∃ groups, g.moves s = .ok groups ∧ (groups.map Prod.fst).Nodup ∧
      (∀ x, x ∈ groups.map Prod.fst ↔ g.Meets s.HasKernel x) ∧
      ∀ x cores, (x, cores) ∈ groups → ∀ c, c ∈ cores ↔ g.Moves s.HasKernel x c := by
  set added := (s.nonterminals.getD []).flatMap fun A => (g.rulesOf A).map fun n => (⟨n, 0⟩ : Core)
    with hadded
  have hreaches (c : Core) : c ∈ s.kernel.map Item.core ++ added ↔ g.Reaches s.HasKernel c := by
    rw [reaches_iff wf, List.mem_append, ItemSet.mem_kernel_map, hadded, hxs]
    simp only [Option.getD_some, List.mem_flatMap, List.mem_map, hmem, and_assoc, eq_comm]
  have hvalid : ∀ c ∈ s.kernel.map Item.core ++ added, g.Valid c := fun c hc =>
    ((hreaches c).1 hc).valid hs
  set step : Core → Except Fault (Option (Symbol × Core)) := fun c => do
    let symbol ← c.marked? g.rules
    Except.ok (symbol.map fun x => (x, c.advance)) with hstep
  have hok {c : Core} (hc : c ∈ s.kernel.map Item.core ++ added) :
      ∃ m, step c = .ok m ∧ ∀ p, m = some p ↔ p.2 = c.advance ∧ ∃ rest, g.Marks c p.1 rest := by
    obtain ⟨m, hm, hiff⟩ := exists_marked?_eq_ok (hvalid c hc)
    refine ⟨m.map fun x => (x, c.advance), by simp only [hstep, hm]; rfl, fun p => ?_⟩
    rw [Option.map_eq_some_iff]
    constructor
    · rintro ⟨x, hx, rfl⟩
      exact ⟨rfl, (hiff x).1 hx⟩
    · rintro ⟨hadvance, hmarks⟩
      exact ⟨p.1, (hiff p.1).2 hmarks, by rw [← hadvance]⟩
  obtain ⟨marked, hmarked, hof, hto⟩ := exists_mapM_eq_ok_and fun c hc => hok hc
  set steps := marked.filterMap id with hsteps
  have hmemSteps (x : Symbol) (c : Core) : (x, c) ∈ steps ↔ g.Moves s.HasKernel x c := by
    rw [hsteps, List.mem_filterMap]
    constructor
    · rintro ⟨m, hm, rfl⟩
      obtain ⟨d, hd, hiff⟩ := hof _ hm
      obtain ⟨hadvance, rest, hmarks⟩ := (hiff (x, c)).1 rfl
      exact ⟨d, rest, (hreaches d).1 hd, hmarks, hadvance⟩
    · rintro ⟨d, rest, hd, hmarks, rfl⟩
      obtain ⟨m, hm, hiff⟩ := hto d ((hreaches d).2 hd)
      exact ⟨m, hm, (hiff (x, d.advance)).2 ⟨rfl, rest, hmarks⟩⟩
  refine ⟨_, by rw [moves, ← hadded, hmarked]; rfl, ?_, fun x => ?_, fun x cores hgroup c => ?_⟩
  · rw [List.map_map, show (Prod.fst ∘ fun x => (x, (steps.filter fun p => p.1 == x).map Prod.snd)) = id from
      rfl, List.map_id]
    exact nodup_eraseDups _
  · rw [List.map_map, show (Prod.fst ∘ fun x => (x, (steps.filter fun p => p.1 == x).map Prod.snd)) = id from
      rfl, List.map_id, List.mem_eraseDups, List.mem_map]
    constructor
    · rintro ⟨⟨x, c⟩, hxc, rfl⟩
      obtain ⟨d, rest, hd, hmarks, -⟩ := (hmemSteps x c).1 hxc
      exact ⟨d, rest, hd, hmarks⟩
    · rintro ⟨d, rest, hd, hmarks⟩
      exact ⟨(x, d.advance), (hmemSteps x _).2 ⟨d, rest, hd, hmarks, rfl⟩, rfl⟩
  · obtain ⟨y, -, heq⟩ := List.mem_map.1 hgroup
    obtain ⟨rfl, rfl⟩ := Prod.mk.inj heq
    rw [List.mem_map, ← hmemSteps]
    constructor
    · rintro ⟨⟨z, d⟩, hzd, rfl⟩
      obtain ⟨hsteps, hzy⟩ := List.mem_filter.1 hzd
      obtain rfl : z = y := by simpa using hzy
      exact hsteps
    · intro hc
      exact ⟨(y, c), List.mem_filter.2 ⟨hc, by simp⟩, rfl⟩

end Augmented

/-- The cores in the kernel of a numbered state. -/
def KernelAt (states : Array ItemSet) (n : Nat) (c : Core) : Prop :=
  ∃ s, states[n]? = some s ∧ s.HasKernel c

/-- The kernel of a state is that of its item set. -/
lemma kernelAt_eq {states : Array ItemSet} {n : Nat} {s : ItemSet} (h : states[n]? = some s) :
    KernelAt states n = s.HasKernel := by
  funext c
  refine propext ⟨?_, fun hc => ⟨s, h, hc⟩⟩
  rintro ⟨t, ht, hc⟩
  rwa [Option.some.inj (h.symm.trans ht)]

namespace Exploration

variable {g : Augmented}

/-! ### Entering kernels -/

/-- The set of the given cores has them as its kernel. -/
lemma hasKernel_kernelOf {cores : List Core} {c : Core} : (kernelOf cores).HasKernel c ↔ c ∈ cores := by
  unfold kernelOf
  rw [ItemSet.hasKernel_ofList (by simp), ItemSet.has_ofList]
  simp

/-- The states found so far consist of kernel items with valid cores, are listed by their kernels, and have
different kernels. -/
structure Consistent (g : Augmented) (e : Exploration) : Prop where
  keys : e.keys.toList = e.states.toList.map ItemSet.kernelKey
  nodup : e.keys.toList.Nodup
  distinct : ∀ s ∈ e.states, s.Distinct
  hasKernel : ∀ s ∈ e.states, ∀ c, s.Has c → s.HasKernel c
  valid : ∀ s ∈ e.states, ∀ c, s.HasKernel c → g.Valid c

/-- The second exploration has the states and transitions of the first one, and perhaps states that have not
been visited. -/
structure Extends (e e' : Exploration) : Prop where
  transitions : e'.transitions = e.transitions
  size_le : e.states.size ≤ e'.states.size
  states : ∀ n, n < e.states.size → e'.states[n]? = e.states[n]?
  fresh : ∀ n s, e.states.size ≤ n → e'.states[n]? = some s → s.index = none

/-- An exploration extends itself. -/
lemma Extends.refl (e : Exploration) : Extends e e := by
  refine ⟨rfl, le_rfl, fun _ _ => rfl, fun n s hn hs => ?_⟩
  rw [Array.getElem?_eq_none hn] at hs
  cases hs

/-- Extensions compose. -/
lemma Extends.trans {e e' e'' : Exploration} (h : Extends e e') (h' : Extends e' e'') : Extends e e'' := by
  refine ⟨h'.transitions.trans h.transitions, h.size_le.trans h'.size_le, fun n hn => ?_, fun n s hn hs => ?_⟩
  · rw [h'.states n (hn.trans_le h.size_le), h.states n hn]
  · by_cases hlt : n < e'.states.size
    · exact h.fresh n s hn (h'.states n hlt ▸ hs)
    · exact h'.fresh n s (not_lt.1 hlt) hs

/-- An extension keeps the kernels of the states. -/
lemma Extends.kernelAt {e e' : Exploration} (h : Extends e e') {n : Nat} (hn : n < e.states.size) :
    KernelAt e'.states n = KernelAt e.states n := by
  funext c
  rw [KernelAt, KernelAt, h.states n hn]

/-- Two states with the same kernel are the same state. -/
lemma Consistent.eq_of_kernelAt {e : Exploration} (h : e.Consistent g) {n m : Nat}
    (hn : n < e.states.size) (hm : m < e.states.size)
    (heq : KernelAt e.states n = KernelAt e.states m) : n = m := by
  have hkey : ∀ k (hk : k < e.states.size), e.keys.toList[k]? = some e.states[k].kernelKey := by
    intro k hk
    rw [h.keys, List.getElem?_map, Array.getElem?_toList, Array.getElem?_eq_getElem hk, Option.map_some]
  rw [kernelAt_eq (Array.getElem?_eq_getElem hn), kernelAt_eq (Array.getElem?_eq_getElem hm)] at heq
  have hlt : n < e.keys.toList.length := by simpa [h.keys] using hn
  refine (List.getElem?_inj hlt h.nodup).1 ?_
  rw [hkey n hn, hkey m hm]
  exact congrArg some (ItemSet.kernelKey_eq_iff.2 fun c => by rw [heq])

/-- A kernel that is entered is known already, or becomes the last state. -/
lemma enter_cases (e : Exploration) (cores : List Core) :
    (∃ n, e.keys[n]? = some (kernelOf cores).kernelKey ∧ e.enter cores = (e, n)) ∨
      (kernelOf cores).kernelKey ∉ e.keys ∧
        e.enter cores = ({ e with
          states := e.states.push (kernelOf cores)
          keys := e.keys.push (kernelOf cores).kernelKey }, e.states.size) := by
  cases hfind : e.keys.idxOf? (kernelOf cores).kernelKey with
  | some n =>
    refine Or.inl ⟨n, ?_, by simp [Exploration.enter, hfind]⟩
    rw [Array.idxOf?_eq_map_finIdxOf?_val, Option.map_eq_some_iff] at hfind
    obtain ⟨i, hi, rfl⟩ := hfind
    simpa using (Array.finIdxOf?_eq_some_iff.1 hi).1
  | none => exact Or.inr ⟨Array.idxOf?_eq_none_iff.1 hfind, by simp [Exploration.enter, hfind]⟩

/-- Entering a kernel of valid cores gives the number of a state with that kernel, and adds at most that
state. -/
lemma Consistent.enter {e e' : Exploration} {m : Nat} (h : e.Consistent g) {cores : List Core}
    (hcores : ∀ c ∈ cores, g.Valid c) (henter : e.enter cores = (e', m)) :
    e'.Consistent g ∧ Extends e e' ∧ m < e'.states.size ∧ (∀ c, KernelAt e'.states m c ↔ c ∈ cores) ∧
      ∀ n, n < e'.states.size → n < e.states.size ∨ n = m := by
  rcases enter_cases e cores with ⟨n, hkey, heq⟩ | ⟨hnew, heq⟩
  · obtain ⟨rfl, rfl⟩ := Prod.mk.inj (henter.symm.trans heq)
    rw [← Array.getElem?_toList, h.keys, List.getElem?_map, Option.map_eq_some_iff] at hkey
    obtain ⟨s, hs, hkey⟩ := hkey
    rw [Array.getElem?_toList] at hs
    refine ⟨h, .refl _, (Array.getElem?_eq_some_iff.1 hs).1, fun c => ?_, fun k hk => Or.inl hk⟩
    rw [kernelAt_eq hs, ItemSet.kernelKey_eq_iff.1 hkey c, hasKernel_kernelOf]
  · obtain ⟨rfl, rfl⟩ := Prod.mk.inj (henter.symm.trans heq)
    have hlast : (e.states.push (kernelOf cores))[e.states.size]? = some (kernelOf cores) :=
      Array.getElem?_push_size
    refine ⟨⟨?_, ?_, ?_, ?_, ?_⟩, ⟨rfl, by simp, fun n hn => ?_, fun n s hn hs => ?_⟩, by simp,
      fun c => ?_, fun n hn => ?_⟩
    · simp [h.keys]
    · simpa [List.nodup_append, h.nodup] using fun key hkey => ne_of_mem_of_not_mem hkey hnew
    · intro s hs
      rcases Array.mem_push.1 hs with hs | rfl
      · exact h.distinct s hs
      · exact ItemSet.distinct_ofList _
    · intro s hs c hc
      rcases Array.mem_push.1 hs with hs | rfl
      · exact h.hasKernel s hs c hc
      · exact (ItemSet.hasKernel_ofList (by simp)).2 hc
    · intro s hs c hc
      rcases Array.mem_push.1 hs with hs | rfl
      · exact h.valid s hs c hc
      · exact hcores c (hasKernel_kernelOf.1 hc)
    · rw [Array.getElem?_push_lt hn, Array.getElem?_eq_getElem hn]
    · obtain ⟨hlt, -⟩ := Array.getElem?_eq_some_iff.1 hs
      obtain rfl : n = e.states.size := by
        rw [Array.size_push] at hlt
        omega
      obtain rfl := Option.some.inj (hlast.symm.trans hs)
      exact ItemSet.index_merge {} _
    · rw [kernelAt_eq hlast, hasKernel_kernelOf]
    · rw [Array.size_push] at hn
      omega

/-- Entering the kernels that several symbols lead to gives the transitions on these symbols, and adds no
states but those that they lead to. -/
lemma Consistent.enterAll {e e' : Exploration} {row : SymbolMap Nat} (h : e.Consistent g)
    {groups : List (Symbol × List Core)} (hgroups : ∀ p ∈ groups, ∀ c ∈ p.2, g.Valid c)
    (hnodup : (groups.map Prod.fst).Nodup) (henter : e.enterAll groups = (e', row)) :
    e'.Consistent g ∧ Extends e e' ∧
      (∀ (x : Symbol) m, row[x]? = some m → m < e'.states.size ∧
        ∃ cores, (x, cores) ∈ groups ∧ ∀ c, KernelAt e'.states m c ↔ c ∈ cores) ∧
      (∀ x ∈ groups.map Prod.fst, ∃ m, row[x]? = some m) ∧
      ∀ n, e.states.size ≤ n → n < e'.states.size → ∃ x : Symbol, row[x]? = some n := by
  induction groups using List.reverseRecOn generalizing e' row with
  | nil =>
    obtain ⟨rfl, rfl⟩ := Prod.mk.inj henter
    exact ⟨h, .refl _, by simp, by simp, fun n hn hlt => absurd hlt (not_lt.2 hn)⟩
  | append_singleton groups group ih =>
    obtain ⟨x, cores⟩ := group
    rcases hinit : e.enterAll groups with ⟨e₁, row₁⟩
    rcases hlast : e₁.enter cores with ⟨e₂, m⟩
    have hboth : e.enterAll (groups ++ [(x, cores)]) = (e₂, row₁.insert x m) := by
      unfold Exploration.enterAll at hinit ⊢
      rw [List.foldl_append, hinit, List.foldl_cons, List.foldl_nil]
      simp [hlast]
    obtain ⟨rfl, rfl⟩ := Prod.mk.inj (henter.symm.trans hboth)
    rw [List.map_append, List.map_singleton, List.nodup_append] at hnodup
    obtain ⟨hnodup, -, hdisjoint⟩ := hnodup
    obtain ⟨h₁, hext₁, hrow₁, hsome₁, hnew₁⟩ :=
      ih (fun p hp => hgroups p (List.mem_append_left _ hp)) hnodup hinit
    obtain ⟨h₂, hext₂, hlt, hkernel, hnew₂⟩ :=
      h₁.enter (hgroups (x, cores) (List.mem_append_right _ List.mem_cons_self)) hlast
    refine ⟨h₂, hext₁.trans hext₂, fun y k hk => ?_, fun y hy => ?_, fun n hn hlt' => ?_⟩
    · rw [Std.ExtTreeMap.getElem?_insert] at hk
      by_cases hxy : compare x y = .eq
      · obtain rfl := Std.LawfulEqOrd.eq_of_compare hxy
        rw [if_pos hxy] at hk
        obtain rfl := Option.some.inj hk
        exact ⟨hlt, cores, by simp, hkernel⟩
      · rw [if_neg hxy] at hk
        obtain ⟨hk, cores', hmem, hcores⟩ := hrow₁ y k hk
        refine ⟨hk.trans_le hext₂.size_le, cores', List.mem_append_left _ hmem, fun c => ?_⟩
        rw [hext₂.kernelAt hk, hcores]
    · rw [Std.ExtTreeMap.getElem?_insert]
      by_cases hxy : compare x y = .eq
      · exact ⟨m, if_pos hxy⟩
      · rw [List.map_append, List.mem_append] at hy
        rcases hy with hy | hy
        · obtain ⟨k, hk⟩ := hsome₁ y hy
          exact ⟨k, by rw [if_neg hxy, hk]⟩
        · obtain rfl : y = x := by simpa using hy
          exact absurd Std.ReflOrd.compare_self hxy
    · rcases hnew₂ n hlt' with hlt' | rfl
      · obtain ⟨y, hy⟩ := hnew₁ n hn hlt'
        obtain ⟨-, cores', hmem, -⟩ := hrow₁ y n hy
        -- the last symbol is not among the others
        have hne : x ≠ y := fun hxy => hdisjoint y (List.mem_map.2 ⟨_, hmem, rfl⟩) x (by simp) hxy.symm
        refine ⟨y, ?_⟩
        rw [Std.ExtTreeMap.getElem?_insert, if_neg fun hxy => hne (Std.LawfulEqOrd.eq_of_compare hxy), hy]
      · exact ⟨x, by simp⟩

/-! ### Visiting states -/

/-- The first `n` states have been visited: their transitions are the moves of the dot, and each state but
the first one has been entered from an earlier one.  The others have no number yet. -/
structure Sound (g : Augmented) (n : Nat) (e : Exploration) : Prop where
  consistent : e.Consistent g
  size_transitions : e.transitions.size = n
  size_le : n ≤ e.states.size
  start : ∀ c, KernelAt e.states 0 c ↔ c = ⟨0, 0⟩
  fresh : ∀ k s, n ≤ k → e.states[k]? = some s → s.index = none
  target : ∀ k row (x : Symbol) m, e.transitions[k]? = some row → row[x]? = some m →
    m < e.states.size ∧ g.Meets (KernelAt e.states k) x ∧
      ∀ c, KernelAt e.states m c ↔ g.Moves (KernelAt e.states k) x c
  exists_target : ∀ k row x, e.transitions[k]? = some row → g.Meets (KernelAt e.states k) x →
    ∃ m, row[x]? = some m
  entered : ∀ m, 0 < m → m < e.states.size →
    ∃ k row, ∃ x : Symbol, k < m ∧ e.transitions[k]? = some row ∧ row[x]? = some m

/-- Giving a state its nonterminals and its number keeps the states consistent, and their kernels. -/
lemma Consistent.setIfInBounds {e : Exploration} (h : e.Consistent g) {n : Nat} {s : ItemSet}
    (hs : e.states[n]? = some s) (nonterminals : Option (List Symbol)) (index : Option Nat) :
    Consistent g { e with states := e.states.setIfInBounds n { s with nonterminals, index } } ∧
      KernelAt (e.states.setIfInBounds n { s with nonterminals, index }) = KernelAt e.states := by
  have hmem : s ∈ e.states := Array.mem_of_getElem? hs
  obtain ⟨hlt, -⟩ := Array.getElem?_eq_some_iff.1 hs
  refine ⟨⟨?_, h.nodup, ?_, ?_, ?_⟩, ?_⟩
  · refine h.keys.trans (List.ext_getElem? fun k => ?_)
    simp only [List.getElem?_map, Array.getElem?_toList, Array.getElem?_setIfInBounds]
    by_cases hk : n = k
    · subst hk
      rw [if_pos rfl, if_pos hlt, hs]
      rfl
    · rw [if_neg hk]
  · intro t ht
    rcases Array.mem_or_eq_of_mem_setIfInBounds ht with ht | rfl
    · exact h.distinct t ht
    · exact h.distinct s hmem
  · intro t ht
    rcases Array.mem_or_eq_of_mem_setIfInBounds ht with ht | rfl
    · exact h.hasKernel t ht
    · exact h.hasKernel s hmem
  · intro t ht
    rcases Array.mem_or_eq_of_mem_setIfInBounds ht with ht | rfl
    · exact h.valid t ht
    · exact h.valid s hmem
  · funext k c
    unfold KernelAt
    rw [Array.getElem?_setIfInBounds]
    by_cases hk : n = k
    · subst hk
      rw [if_pos rfl, if_pos hlt, hs]
      simp only [Option.some.injEq, exists_eq_left']
      rfl
    · rw [if_neg hk]

/-- Visiting the next state succeeds. -/
lemma Sound.exists_visit_eq_ok (wf : g.WellFormed) {n : Nat} {e : Exploration} {s : ItemSet}
    (h : e.Sound g n) (hs : e.states[n]? = some s) : ∃ e', g.visit e n s = .ok e' ∧ e'.Sound g (n + 1) := by
  have hvalid : ∀ c, s.HasKernel c → g.Valid c := h.consistent.valid s (Array.mem_of_getElem? hs)
  obtain ⟨xs, hxs, hmem⟩ := Augmented.exists_closureNonterminals_eq_ok wf hvalid
  set t : ItemSet := { s with nonterminals := some xs, index := some n } with ht
  have hindex : ({ s with nonterminals := some xs } : ItemSet).setIndex n = .ok t := by
    simp [ItemSet.setIndex, h.fresh n s le_rfl hs, ht]
  obtain ⟨groups, hgroups, hnodup, hmeets, hmoves⟩ :=
    Augmented.exists_moves_eq_ok wf (s := t) hvalid rfl hmem
  obtain ⟨hconsistent, hkernels⟩ := h.consistent.setIfInBounds hs (some xs) (some n)
  set e₁ : Exploration := { e with states := e.states.setIfInBounds n t } with he₁
  have hsize : e₁.states.size = e.states.size := Array.size_setIfInBounds
  rcases hall : e₁.enterAll groups with ⟨e₂, row⟩
  have hcores : ∀ p ∈ groups, ∀ c ∈ p.2, g.Valid c := by
    rintro ⟨x, cores⟩ hp c hc
    obtain ⟨d, rest, -, hm, rfl⟩ := (hmoves x cores hp c).1 hc
    exact hm.valid_advance
  obtain ⟨h₂, hext, hrow, hsome, hnew⟩ := hconsistent.enterAll hcores hnodup hall
  have hlt : n < e.states.size := (Array.getElem?_eq_some_iff.1 hs).1
  -- the kernels of the states that were there are unchanged
  have hsame {k : Nat} (hk : k < e.states.size) : KernelAt e₂.states k = KernelAt e.states k := by
    rw [hext.kernelAt (hsize ▸ hk), hkernels]
  have hn : KernelAt e₂.states n = s.HasKernel := by rw [hsame hlt, kernelAt_eq hs]
  have htrans : e₂.transitions = e.transitions := hext.transitions
  have hpushed {k : Nat} {row' : SymbolMap Nat} (hk : (e₂.transitions.push row)[k]? = some row') :
      k < n ∧ e.transitions[k]? = some row' ∨ k = n ∧ row' = row := by
    rw [htrans, Array.getElem?_push, h.size_transitions] at hk
    by_cases hkn : k = n
    · rw [if_pos hkn] at hk
      exact Or.inr ⟨hkn, (Option.some.inj hk).symm⟩
    · rw [if_neg hkn] at hk
      have := (Array.getElem?_eq_some_iff.1 hk).1
      exact Or.inl ⟨by rwa [h.size_transitions] at this, hk⟩
  have hlast : (e₂.transitions.push row)[n]? = some row := by
    rw [htrans, ← h.size_transitions]
    exact Array.getElem?_push_size
  refine ⟨{ e₂ with transitions := e₂.transitions.push row }, ?_, ⟨?_, ?_, ?_, ?_, ?_, ?_, ?_, ?_⟩⟩
  · unfold Augmented.visit
    rw [hxs]
    simp only [bind, Except.bind, hindex, hgroups]
    rw [← he₁, hall]
  · exact ⟨h₂.keys, h₂.nodup, h₂.distinct, h₂.hasKernel, h₂.valid⟩
  · rw [Array.size_push, htrans, h.size_transitions]
  · exact hlt.trans_le (hsize ▸ hext.size_le)
  · intro c
    rw [hsame (hlt.trans_le' (Nat.zero_le n))]
    exact h.start c
  · intro k u hk hu
    by_cases hku : k < e₁.states.size
    · have hk' : n ≠ k := by omega
      rw [hext.states k hku, he₁, Array.getElem?_setIfInBounds, if_neg hk'] at hu
      exact h.fresh k u (by omega) hu
    · exact hext.fresh k u (not_lt.1 hku) hu
  · intro k row' x m hk hm
    rcases hpushed hk with ⟨hkn, hk⟩ | ⟨rfl, rfl⟩
    · obtain ⟨hmlt, hx, hc⟩ := h.target k row' x m hk hm
      rw [hsame (hkn.trans hlt), hsame hmlt]
      exact ⟨hmlt.trans_le (hsize ▸ hext.size_le), hx, hc⟩
    · obtain ⟨hmlt, cores, hcores, hc⟩ := hrow x m hm
      rw [hn]
      refine ⟨hmlt, (hmeets x).1 (List.mem_map.2 ⟨_, hcores, rfl⟩), fun c => ?_⟩
      rw [hc, hmoves x cores hcores]
      rfl
  · intro k row' x hk hx
    rcases hpushed hk with ⟨hkn, hk⟩ | ⟨rfl, rfl⟩
    · rw [hsame (hkn.trans hlt)] at hx
      exact h.exists_target k row' x hk hx
    · rw [hn] at hx
      exact hsome x ((hmeets x).2 hx)
  · intro m hm hmlt
    by_cases hmold : m < e.states.size
    · obtain ⟨k, row', x, hkm, hk, hx⟩ := h.entered m hm hmold
      refine ⟨k, row', x, hkm, ?_, hx⟩
      have hkn : k < e₂.transitions.size := by
        rw [htrans]
        exact (Array.getElem?_eq_some_iff.1 hk).1
      rw [Array.getElem?_push_lt hkn, ← Array.getElem?_eq_getElem, htrans, hk]
    · obtain ⟨x, hx⟩ := hnew m (hsize ▸ not_lt.1 hmold) hmlt
      exact ⟨n, row, x, by omega, hlast, hx⟩

/-! ### The number of states -/

/-- The valid cores of a list of rules that are numbered from `start` on. -/
def coresFrom (start : Nat) : List Rule → List Core
  | [] => []
  | r :: rules => (List.range (r.rhs.length + 1)).map (fun dot => ⟨start, dot⟩) ++ coresFrom (start + 1) rules

/-- There are as many cores as there are places for dots. -/
lemma foldl_length_eq (rules : List Rule) (start count : Nat) :
    rules.foldl (fun count r => count + (r.rhs.length + 1)) count =
      count + (coresFrom start rules).length := by
  induction rules generalizing start count with
  | nil => rfl
  | cons r rules ih =>
    rw [List.foldl_cons, ih (start + 1), coresFrom, List.length_append, List.length_map, List.length_range]
    omega

/-- A dot in the body of a rule gives one of the cores. -/
lemma mem_coresFrom {rules : List Rule} (start : Nat) {n dot : Nat} {r : Rule} (hr : rules[n]? = some r)
    (hdot : dot ≤ r.rhs.length) : (⟨start + n, dot⟩ : Core) ∈ coresFrom start rules := by
  induction rules generalizing start n with
  | nil => cases hr
  | cons q rules ih =>
    rw [coresFrom, List.mem_append]
    cases n with
    | zero =>
      obtain rfl : q = r := by simpa using hr
      exact Or.inl (List.mem_map.2 ⟨dot, List.mem_range.2 (Nat.lt_succ_of_le hdot), rfl⟩)
    | succ n =>
      have hmem := ih (start + 1) (n := n) (by simpa using hr)
      exact Or.inr (by rwa [Nat.add_right_comm] at hmem)

/-- The number of cores of a grammar bounds the number of its valid cores. -/
lemma exists_validCores (g : Augmented) :
    ∃ cores : List Core, cores.length = g.coreCount ∧ ∀ c, g.Valid c → c ∈ cores := by
  refine ⟨coresFrom 0 g.rules.toList, ?_, fun c hc => ?_⟩
  · rw [Augmented.coreCount, foldl_length_eq _ 0, Nat.zero_add]
  · obtain ⟨r, hr, hdot⟩ := hc
    rw [← Array.getElem?_toList] at hr
    simpa using mem_coresFrom 0 hr hdot

/-- There are at most as many states as there are sets of cores. -/
lemma Consistent.size_le {e : Exploration} (h : e.Consistent g) :
    e.states.size ≤ Nat.pow 2 g.coreCount := by
  classical
  obtain ⟨cores, hlength, hcores⟩ := exists_validCores g
  have hinjective : Set.InjOn (fun n => cores.toFinset.filter (KernelAt e.states n))
      (Finset.range e.states.size : Set Nat) := by
    intro n hn m hm heq
    refine h.eq_of_kernelAt (by simpa using hn) (by simpa using hm) (funext fun c => propext ?_)
    have hvalid {k : Nat} (hk : KernelAt e.states k c) : c ∈ cores.toFinset := by
      obtain ⟨s, hs, hc⟩ := hk
      exact List.mem_toFinset.2 (hcores c (h.valid s (Array.mem_of_getElem? hs) c hc))
    have hiff := congrArg (fun set => c ∈ set) heq
    simp only [Finset.mem_filter, eq_iff_iff] at hiff
    exact ⟨fun hc => (hiff.1 ⟨hvalid hc, hc⟩).2, fun hc => (hiff.2 ⟨hvalid hc, hc⟩).2⟩
  calc e.states.size = (Finset.range e.states.size).card := (Finset.card_range _).symm
    _ ≤ cores.toFinset.powerset.card :=
      Finset.card_le_card_of_injOn _ (fun n _ => Finset.mem_powerset.2 (Finset.filter_subset _ _)) hinjective
    _ = 2 ^ cores.toFinset.card := Finset.card_powerset _
    _ ≤ 2 ^ g.coreCount := Nat.pow_le_pow_right (by decide) (hlength ▸ cores.toFinset_card_le)

/-! ### The explored automaton -/

/-- Exploring from a sound exploration on visits all the states. -/
lemma Sound.exists_explore_eq_ok (wf : g.WellFormed) {n : Nat} {e : Exploration} (h : e.Sound g n)
    (fuel : Nat) (hfuel : Nat.pow 2 g.coreCount ≤ fuel + n) :
    ∃ e', g.explore fuel n e = .ok e' ∧ e'.Sound g e'.states.size := by
  induction fuel generalizing n e with
  | zero =>
    have hsize := h.consistent.size_le
    obtain rfl : n = e.states.size := le_antisymm h.size_le (by omega)
    exact ⟨e, by simp [Augmented.explore], h⟩
  | succ fuel ih =>
    cases hs : e.states[n]? with
    | none =>
      obtain rfl : n = e.states.size := le_antisymm h.size_le (Array.getElem?_eq_none_iff.1 hs)
      exact ⟨e, by simp [Augmented.explore], h⟩
    | some s =>
      obtain ⟨e', he', h'⟩ := h.exists_visit_eq_ok wf hs
      obtain ⟨e'', he'', h''⟩ := ih h' (by omega)
      refine ⟨e'', ?_, h''⟩
      rw [Augmented.explore]
      simp only [hs, he', bind, Except.bind]
      exact he''

/-- Before anything is visited the exploration is sound. -/
lemma sound_start (wf : g.WellFormed) : start.Sound g 0 := by
  have hkernel : KernelAt start.states 0 = fun c => c = ⟨0, 0⟩ := by
    funext c
    rw [kernelAt_eq (s := kernelOf [⟨Augmented.augmentingRule, 0⟩]) rfl]
    exact propext (hasKernel_kernelOf.trans List.mem_singleton)
  refine ⟨⟨rfl, by simp [start], ?_, ?_, ?_⟩, rfl, Nat.zero_le _, fun c => by rw [hkernel], ?_, ?_, ?_, ?_⟩
  · intro s hs
    obtain rfl : s = kernelOf [⟨Augmented.augmentingRule, 0⟩] := by simpa [start] using hs
    exact ItemSet.distinct_ofList _
  · intro s hs c hc
    obtain rfl : s = kernelOf [⟨Augmented.augmentingRule, 0⟩] := by simpa [start] using hs
    exact (ItemSet.hasKernel_ofList (by simp)).2 hc
  · intro s hs c hc
    obtain rfl : s = kernelOf [⟨Augmented.augmentingRule, 0⟩] := by simpa [start] using hs
    obtain rfl := List.mem_singleton.1 (hasKernel_kernelOf.1 hc)
    exact ⟨_, wf.augmenting, Nat.zero_le _⟩
  · intro k s _ hs
    obtain rfl : s = kernelOf [⟨Augmented.augmentingRule, 0⟩] := by
      simpa [start] using Array.mem_of_getElem? hs
    exact ItemSet.index_merge {} _
  · intro k row x m hk
    simp [start] at hk
  · intro k row x hk
    simp [start] at hk
  · intro m hm hlt
    have : m < 1 := hlt
    omega

end Exploration

namespace Automaton

/-- The transitions of an automaton are the moves of the dot.  States differ in their kernels, the first one
is that of the augmenting rule, and the others are entered from earlier ones. -/
structure Explored (g : Augmented) (a : Automaton) : Prop where
  size_pos : 0 < a.states.size
  start : ∀ c, KernelAt a.states 0 c ↔ c = ⟨0, 0⟩
  valid : ∀ {n : Nat} {c : Core}, KernelAt a.states n c → g.Valid c
  injective : ∀ {n m : Nat}, n < a.states.size → m < a.states.size →
    KernelAt a.states n = KernelAt a.states m → n = m
  target : ∀ {n m : Nat} {x : Symbol}, a.goto? n x = some m →
    n < a.states.size ∧ m < a.states.size ∧ g.Meets (KernelAt a.states n) x ∧
      ∀ c, KernelAt a.states m c ↔ g.Moves (KernelAt a.states n) x c
  exists_target : ∀ {n : Nat} {x : Symbol}, g.Meets (KernelAt a.states n) x → ∃ m, a.goto? n x = some m
  entered : ∀ {m : Nat}, 0 < m → m < a.states.size → ∃ k x, k < m ∧ a.goto? k x = some m

/-- A state that reaches a core exists. -/
lemma lt_size_of_reaches {g : Augmented} {states : Array ItemSet} {n : Nat} {c : Core}
    (h : g.Reaches (KernelAt states n) c) : n < states.size := by
  induction h with
  | kernel hc =>
    obtain ⟨s, hs, -⟩ := hc
    exact (Array.getElem?_eq_some_iff.1 hs).1
  | expand _ _ ih => exact ih

/-- Outside the automaton there are no transitions. -/
lemma Explored.goto?_eq_none {g : Augmented} {a : Automaton} (h : a.Explored g) {n : Nat} {x : Symbol}
    (hn : ¬ n < a.states.size) : a.goto? n x = none := by
  by_contra hne
  obtain ⟨m, hm⟩ := Option.ne_none_iff_exists'.1 hne
  exact hn (h.target hm).1

/-- A state that a transition enters has a core in its kernel. -/
lemma Explored.exists_kernelAt_of_goto {g : Augmented} {a : Automaton} (h : a.Explored g) {n m : Nat} {x : Symbol}
    (hgoto : a.goto? n x = some m) : ∃ c, KernelAt a.states m c := by
  obtain ⟨-, -, ⟨c, rest, hc, hm⟩, hmoves⟩ := h.target hgoto
  exact ⟨c.advance, (hmoves _).2 ⟨c, rest, hc, hm, rfl⟩⟩

/-- What holds of the beginning of the augmenting rule, and is kept where a core opens a rule and where a
transition moves a dot, holds of every core that a state reaches. -/
lemma Explored.reaches_induction {g : Augmented} {a : Automaton} (h : a.Explored g)
    {P : Nat → Core → Prop} (hstart : P 0 ⟨0, 0⟩)
    (hopens : ∀ {n i : Nat} {c : Core} {rest : Body}, g.Reaches (KernelAt a.states n) c → P n c →
      g.Opens c i rest → P n ⟨i, 0⟩)
    (hmoves : ∀ {n m : Nat} {c : Core} {x : Symbol} {rest : Body}, P n c → g.Marks c x rest →
      a.goto? n x = some m → P m c.advance)
    {n : Nat} {c : Core} (hc : g.Reaches (KernelAt a.states n) c) : P n c := by
  -- a kernel core comes from an earlier state, and an added core from the one that opens it
  induction n using Nat.strong_induction_on generalizing c with
  | _ n ihn =>
    have hlt := lt_size_of_reaches hc
    induction hc with
    | @kernel c hc =>
      by_cases hn : n = 0
      · subst hn
        exact (h.start c).1 hc ▸ hstart
      · obtain ⟨k, x, hkn, hgoto⟩ := h.entered (Nat.pos_of_ne_zero hn) hlt
        obtain ⟨d, rest, hd, hm, rfl⟩ := ((h.target hgoto).2.2.2 c).1 hc
        exact hmoves (ihn k hkn hd) hm hgoto
    | expand hc ho ih => exact hopens hc ih ho

end Automaton

/-- The automaton of a well-formed grammar is found, and it is explored.  Its states consist of kernel
items. -/
theorem Augmented.exists_automaton_eq_ok {g : Augmented} (wf : g.WellFormed) :
    ∃ a, g.automaton = .ok a ∧ a.Explored g ∧
      ∀ s ∈ a.states, s.Distinct ∧ ∀ c, s.Has c → s.HasKernel c := by
  obtain ⟨e, he, h⟩ := (Exploration.sound_start wf).exists_explore_eq_ok wf
    (Nat.pow 2 g.coreCount) (Nat.le_add_right _ _)
  have hgoto {n m : Nat} {x : Symbol} : Automaton.goto? ⟨e.states, e.transitions⟩ n x = some m ↔
      ∃ row, e.transitions[n]? = some row ∧ row[x]? = some m := by
    unfold Automaton.goto?
    exact Option.bind_eq_some_iff
  refine ⟨⟨e.states, e.transitions⟩, by rw [automaton, he]; rfl, ⟨?_, h.start, ?_, ?_, ?_, ?_, ?_⟩, ?_⟩
  · obtain ⟨s, hs, -⟩ := (h.start ⟨0, 0⟩).2 rfl
    exact (Array.getElem?_eq_some_iff.1 hs).1
  · rintro n c ⟨s, hs, hc⟩
    exact h.consistent.valid s (Array.mem_of_getElem? hs) c hc
  · exact fun hn hm => h.consistent.eq_of_kernelAt hn hm
  · intro n m x hm
    obtain ⟨row, hrow, hx⟩ := hgoto.1 hm
    have hn := (Array.getElem?_eq_some_iff.1 hrow).1
    rw [h.size_transitions] at hn
    exact ⟨hn, h.target n row x m hrow hx⟩
  · intro n x hx
    have hn : n < e.transitions.size := by
      rw [h.size_transitions]
      obtain ⟨c, rest, hc, -⟩ := hx
      exact Automaton.lt_size_of_reaches hc
    obtain ⟨m, hm⟩ := h.exists_target n _ x (Array.getElem?_eq_getElem hn) hx
    exact ⟨m, hgoto.2 ⟨_, Array.getElem?_eq_getElem hn, hm⟩⟩
  · intro m hm hlt
    obtain ⟨k, row, x, hkm, hrow, hx⟩ := h.entered m hm hlt
    exact ⟨k, x, hkm, hgoto.2 ⟨row, hrow, hx⟩⟩
  · exact fun s hs => ⟨h.consistent.distinct s hs, h.consistent.hasKernel s hs⟩

end Lalr
