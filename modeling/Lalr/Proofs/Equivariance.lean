import Lalr.Proofs.Exploration
import Mathlib.Logic.Equiv.Basic

/-!
# Exploration under other symbols

The states of an automaton are numbered in the order in which they are found, and that order must not depend on what
the symbols are.  Here a permutation of the symbols is carried through the whole exploration: where one augmented
grammar is another one with other symbols (`Augmented.Renamed`), each function that finds states gives for it the
renamed result.  The nonterminals of a closure are found in the same order, the moves out of a state are the same
with renamed symbols, the same kernels are entered one after the other, and in the end the automaton is the same with
renamed symbols (`Augmented.Renamed.automaton`).

The functions may fail, and they fail together: each equation is one of results that may be faults.
-/

namespace Lalr

/-! ### Renamed keys -/

section

variable {α β : Type} [Ord α] [Std.TransOrd α]

/-- The map with the values moved to other keys. -/
def renameKeys (f : α → α) (m : Std.ExtTreeMap α β) : Std.ExtTreeMap α β :=
  Std.ExtTreeMap.ofList (m.toList.map (Prod.map f id))

/-- Only what becomes of the keys counts. -/
lemma renameKeys_congr {f f' : α → α} {m : Std.ExtTreeMap α β} (h : ∀ p ∈ m.toList, f p.1 = f' p.1) :
    renameKeys f m = renameKeys f' m := by
  have hmap : m.toList.map (Prod.map f id) = m.toList.map (Prod.map f' id) :=
    List.map_congr_left fun p hp => Prod.ext (h p hp) rfl
  rw [renameKeys, hmap]
  rfl

variable [Std.LawfulEqOrd α] {f : α → α} (hf : Function.Injective f)
include hf

/-- Different keys stay different. -/
lemma distinct_keys_map (m : Std.ExtTreeMap α β) :
    (m.toList.map (Prod.map f id)).Pairwise fun p q => ¬ compare p.1 q.1 = .eq := by
  rw [List.pairwise_map]
  refine m.distinct_keys_toList.imp fun {p q} hne heq => hne ?_
  have hkeys : p.1 = q.1 := hf (Std.LawfulEqOrd.eq_of_compare heq)
  rw [hkeys]
  exact Std.ReflOrd.compare_self

/-- A value is found at the key that its own key has become. -/
lemma getElem?_renameKeys [BEq α] [LawfulBEq α] (m : Std.ExtTreeMap α β) (k : α) :
    (renameKeys f m)[f k]? = m[k]? := by
  cases hk : m[k]? with
  | some v =>
    refine Std.ExtTreeMap.getElem?_ofList_of_mem Std.ReflOrd.compare_self (distinct_keys_map hf m) ?_
    exact List.mem_map.2 ⟨(k, v), Std.ExtTreeMap.mem_toList_iff_getElem?_eq_some.2 hk, rfl⟩
  | none =>
    refine Std.ExtTreeMap.getElem?_ofList_of_contains_eq_false ?_
    rw [Bool.eq_false_iff, ne_eq, List.contains_iff_mem, List.map_map]
    intro hmem
    obtain ⟨p, hp, heq⟩ := List.mem_map.1 hmem
    have hkey : p.1 = k := hf heq
    have hvalue := Std.ExtTreeMap.mem_toList_iff_getElem?_eq_some.1 hp
    rw [hkey, hk] at hvalue
    cases hvalue

/-- Keys become keys. -/
lemma mem_renameKeys [BEq α] [LawfulBEq α] {m : Std.ExtTreeMap α β} {k : α} : f k ∈ renameKeys f m ↔ k ∈ m := by
  rw [Std.ExtTreeMap.mem_iff_isSome_getElem?, getElem?_renameKeys hf, Std.ExtTreeMap.mem_iff_isSome_getElem?]

omit [Std.TransOrd α] in
/-- Keys are compared as before. -/
lemma compare_eq_iff_of_injective {k l : α} : compare (f k) (f l) = .eq ↔ compare k l = .eq := by
  simp only [Std.LawfulEqOrd.compare_eq_iff_eq, hf.eq_iff]

/-- Inserting a value and renaming the keys commute. -/
lemma renameKeys_insert [BEq α] [LawfulBEq α] (hsurj : Function.Surjective f) (m : Std.ExtTreeMap α β) (k : α)
    (v : β) : renameKeys f (m.insert k v) = (renameKeys f m).insert (f k) v := by
  refine Std.ExtTreeMap.ext_getElem? fun k' => ?_
  obtain ⟨l, rfl⟩ := hsurj k'
  rw [getElem?_renameKeys hf, Std.ExtTreeMap.getElem?_insert, Std.ExtTreeMap.getElem?_insert, getElem?_renameKeys hf]
  simp only [compare_eq_iff_of_injective hf]

/-- Inserting a value for a new key and renaming the keys commute. -/
lemma renameKeys_insertIfNew [BEq α] [LawfulBEq α] (hsurj : Function.Surjective f) (m : Std.ExtTreeMap α β) (k : α)
    (v : β) : renameKeys f (m.insertIfNew k v) = (renameKeys f m).insertIfNew (f k) v := by
  refine Std.ExtTreeMap.ext_getElem? fun k' => ?_
  obtain ⟨l, rfl⟩ := hsurj k'
  rw [getElem?_renameKeys hf, Std.ExtTreeMap.getElem?_insertIfNew, Std.ExtTreeMap.getElem?_insertIfNew,
    getElem?_renameKeys hf]
  simp only [compare_eq_iff_of_injective hf, mem_renameKeys hf]

/-- There are as many values. -/
lemma size_renameKeys (m : Std.ExtTreeMap α β) : (renameKeys f m).size = m.size := by
  rw [renameKeys, Std.ExtTreeMap.size_ofList (distinct_keys_map hf m), List.length_map, Std.ExtTreeMap.length_toList]

end

/-- Dropping repetitions and renaming commute. -/
lemma eraseDups_map {α β : Type} [BEq α] [LawfulBEq α] [BEq β] [LawfulBEq β] {f : α → β}
    (hf : Function.Injective f) (xs : List α) : (xs.map f).eraseDups = xs.eraseDups.map f := by
  induction hn : xs.length using Nat.strong_induction_on generalizing xs with
  | _ n ih =>
    cases xs with
    | nil => rfl
    | cons x xs =>
      subst hn
      have hfilter : (fun y => !y == f x) ∘ f = fun y => !y == x := by
        funext y
        simp [hf.eq_iff]
      rw [List.map_cons, List.eraseDups_cons, List.eraseDups_cons, List.filter_map, hfilter, List.map_cons,
        ih _ (Nat.lt_succ_of_le (List.length_filter_le _ xs)) _ rfl]

/-- A traversal whose results are renamed one by one. -/
lemma mapM_map_result {α β γ : Type} (f : β → γ) (k : α → Except Fault β) (xs : List α) :
    (xs.mapM fun x => f <$> k x) = List.map f <$> xs.mapM k := by
  induction xs with
  | nil => rfl
  | cons x xs ih =>
    rw [List.mapM_cons, List.mapM_cons, ih, bind_map_left, map_bind]
    refine bind_congr fun y => ?_
    rw [bind_map_left, map_bind]
    rfl

/-- Grouping values by their keys and renaming the keys commute. -/
lemma groups_map {α β : Type} [BEq α] [LawfulBEq α] {f : α → α} (hf : Function.Injective f)
    (entries : List (α × β)) :
    (((entries.map (Prod.map f id)).map Prod.fst).eraseDups.map fun x =>
        (x, ((entries.map (Prod.map f id)).filter fun entry => entry.1 == x).map Prod.snd)) =
      ((entries.map Prod.fst).eraseDups.map fun x =>
        (x, (entries.filter fun entry => entry.1 == x).map Prod.snd)).map (Prod.map f id) := by
  have hkeys : (entries.map (Prod.map f id)).map Prod.fst = (entries.map Prod.fst).map f := by
    simp only [List.map_map, Function.comp_def, Prod.map]
  have hvalues (x : α) : ((entries.map (Prod.map f id)).filter fun entry => entry.1 == f x).map Prod.snd =
      (entries.filter fun entry => entry.1 == x).map Prod.snd := by
    rw [List.filter_map, List.map_map]
    simp only [Function.comp_def, Prod.map, hf.beq_eq, id]
  rw [hkeys, eraseDups_map hf, List.map_map, List.map_map]
  simp only [Function.comp_def, hvalues, Prod.map, id]

/-! ### Renamed grammars -/

/-- The rule with other symbols. -/
def Rule.rename (f : Symbol → Symbol) (r : Rule) : Rule := { r with lhs := f r.lhs, rhs := r.rhs.map f }

namespace Augmented

/-- The second grammar is the first one with other symbols: the rules keep their numbers, and the symbols their
kinds and rules. -/
structure Renamed (π : Equiv.Perm Symbol) (g g' : Augmented) : Prop where
  rules : g'.rules = g.rules.map (Rule.rename π)
  kinds : g'.kinds = renameKeys π g.kinds
  rulesOf : ∀ x, g'.rulesOf (π x) = g.rulesOf x

namespace Renamed

variable {π : Equiv.Perm Symbol} {g g' : Augmented} (h : g.Renamed π g')
include h

/-- Symbols keep their kinds. -/
lemma kind (x : Symbol) : g'.kinds[π x]? = g.kinds[x]? := by
  rw [h.kinds, getElem?_renameKeys π.injective]

/-- The rule of a core is renamed. -/
lemma rule? (c : Core) : c.rule? g'.rules = Rule.rename π <$> c.rule? g.rules := by
  unfold Core.rule?
  rw [h.rules, Array.getElem?_map, Array.size_map]
  cases g.rules[c.rule]? <;> rfl

/-- The symbol after the dot of a core is renamed. -/
lemma marked? (c : Core) : c.marked? g'.rules = Option.map π <$> c.marked? g.rules := by
  unfold Core.marked?
  rw [h.rule?, bind_map_left, map_bind]
  refine bind_congr fun r => ?_
  simp [Rule.rename]

/-- Nonterminals stay nonterminals. -/
lemma isNonterminal_comp : g'.isNonterminal ∘ π = g.isNonterminal := by
  funext x
  simp only [Function.comp_apply, isNonterminal, h.kind]

/-- The nonterminals after the dots of cores are found in the same order. -/
lemma markedNonterminals (cores : List Core) :
    g'.markedNonterminals cores = List.map π <$> g.markedNonterminals cores := by
  unfold Augmented.markedNonterminals
  simp only [h.marked?]
  rw [mapM_map_result, bind_map_left, map_bind]
  refine bind_congr fun marked => ?_
  have hsome : (marked.map (Option.map π)).filterMap id = (marked.filterMap id).map π := by
    rw [List.filterMap_map, List.map_filterMap]
    rfl
  rw [hsome, List.filter_map, h.isNonterminal_comp, eraseDups_map π.injective]
  rfl

/-- The nonterminals that others lead to are found in the same order. -/
lemma followNonterminals (fuel : Nat) (found pending : List Symbol) :
    g'.followNonterminals fuel (found.map π) (pending.map π) =
      List.map π <$> g.followNonterminals fuel found pending := by
  induction fuel generalizing found pending with
  | zero => cases pending <;> rfl
  | succ fuel ih =>
    cases pending with
    | nil => rfl
    | cons x pending =>
      rw [List.map_cons, Augmented.followNonterminals, Augmented.followNonterminals, h.rulesOf,
        h.markedNonterminals, bind_map_left, map_bind]
      refine bind_congr fun leading => ?_
      have hfresh : (leading.map π).filter (fun t => !(found.map π).contains t) =
          (leading.filter fun t => !found.contains t).map π := by
        rw [List.filter_map]
        simp [Function.comp_def]
      simp only [hfresh, ← List.map_append, ih]

end Renamed

end Augmented

/-! ### Renamed states -/

/-- The item set with other nonterminals noted.  Its items are left as they are: a state that has just been found has
no lookaheads. -/
def ItemSet.rename (f : Symbol → Symbol) (s : ItemSet) : ItemSet :=
  { s with nonterminals := s.nonterminals.map (List.map f) }

/-- Renaming keeps the kernel. -/
@[simp] lemma ItemSet.kernel_rename (f : Symbol → Symbol) (s : ItemSet) : (s.rename f).kernel = s.kernel := rfl

/-- A state is numbered whatever its symbols are. -/
lemma ItemSet.setIndex_rename (f : Symbol → Symbol) (s : ItemSet) (n : Nat) :
    (s.rename f).setIndex n = ItemSet.rename f <$> s.setIndex n := by
  unfold ItemSet.setIndex
  change (if s.index = none ∨ s.index = some n then _ else _) = _
  split <;> rfl

namespace Exploration

/-- The exploration with other symbols. -/
def rename (f : Symbol → Symbol) (e : Exploration) : Exploration where
  states := e.states.map (ItemSet.rename f)
  keys := e.keys
  transitions := e.transitions.map (renameKeys f)

/-- A kernel that has just been entered has no nonterminals noted. -/
@[simp] lemma rename_kernelOf (f : Symbol → Symbol) (cores : List Core) :
    (kernelOf cores).rename f = kernelOf cores := by
  have hnone : (kernelOf cores).nonterminals = none := ItemSet.nonterminals_merge {} _
  rw [ItemSet.rename, hnone, Option.map_none, ← hnone]

/-- The first state is the same for all symbols. -/
@[simp] lemma rename_start (f : Symbol → Symbol) : start.rename f = start := by
  simp [rename, start]

/-- Whether a kernel is known does not depend on the symbols. -/
lemma enter_rename (f : Symbol → Symbol) (e : Exploration) (cores : List Core) :
    (e.rename f).enter cores = Prod.map (rename f) id (e.enter cores) := by
  have hkeys : (e.rename f).keys = e.keys := rfl
  simp only [enter, hkeys]
  cases e.keys.idxOf? (kernelOf cores).kernelKey with
  | some n => rfl
  | none => simp [rename]

/-- The kernels that renamed symbols lead to are entered in the same order. -/
lemma enterAll_rename (π : Equiv.Perm Symbol) (e : Exploration) (groups : List (Symbol × List Core)) :
    (e.rename π).enterAll (groups.map (Prod.map π id)) =
      Prod.map (rename π) (renameKeys π) (e.enterAll groups) := by
  unfold enterAll
  have hstart : (e.rename π, (∅ : SymbolMap Nat)) = Prod.map (rename π) (renameKeys π) (e, ∅) := by
    simp [renameKeys]
  rw [hstart]
  generalize (e, (∅ : SymbolMap Nat)) = acc
  induction groups generalizing acc with
  | nil => rfl
  | cons group groups ih =>
    rw [List.map_cons, List.foldl_cons, List.foldl_cons, ← ih]
    congr 1
    simp [enter_rename, renameKeys_insert π.injective π.surjective]

end Exploration

namespace Automaton

/-- The automaton with other symbols. -/
def rename (f : Symbol → Symbol) (a : Automaton) : Automaton where
  states := a.states.map (ItemSet.rename f)
  transitions := a.transitions.map (renameKeys f)

/-- A renamed symbol leads where the symbol leads. -/
lemma goto?_rename (π : Equiv.Perm Symbol) (a : Automaton) (n : Nat) (x : Symbol) :
    (a.rename π).goto? n (π x) = a.goto? n x := by
  have hrow : (a.rename π).transitions[n]? = a.transitions[n]?.map (renameKeys π) := Array.getElem?_map
  unfold goto?
  rw [hrow]
  cases a.transitions[n]? with
  | none => simp
  | some row => exact getElem?_renameKeys π.injective row x

end Automaton

namespace Augmented.Renamed

variable {π : Equiv.Perm Symbol} {g g' : Augmented} (h : g.Renamed π g')
include h

/-- The nonterminals of a closure are found in the same order. -/
lemma closureNonterminals (s : ItemSet) :
    g'.closureNonterminals (s.rename π) = List.map π <$> g.closureNonterminals s := by
  unfold Augmented.closureNonterminals
  rw [ItemSet.kernel_rename, h.markedNonterminals, bind_map_left, map_bind]
  refine bind_congr fun marked => ?_
  rw [h.kinds, size_renameKeys π.injective, h.followNonterminals]

/-- The moves out of a state are the same and in the same order. -/
lemma moves (s : ItemSet) : g'.moves (s.rename π) = List.map (Prod.map π id) <$> g.moves s := by
  unfold Augmented.moves
  have hadded : ((s.rename π).nonterminals.getD []).flatMap
      (fun nt => (g'.rulesOf nt).map fun n => (⟨n, 0⟩ : Core)) =
      (s.nonterminals.getD []).flatMap fun nt => (g.rulesOf nt).map fun n => (⟨n, 0⟩ : Core) := by
    unfold ItemSet.rename
    cases s.nonterminals with
    | none => rfl
    | some xs => simp [List.flatMap_map, h.rulesOf]
  have hstep (c : Core) :
      (c.marked? g'.rules >>= fun symbol => Except.ok (symbol.map fun x => (x, c.advance))) =
        Option.map (Prod.map π id) <$>
          (c.marked? g.rules >>= fun symbol => Except.ok (symbol.map fun x => (x, c.advance))) := by
    rw [h.marked?, bind_map_left, map_bind]
    refine bind_congr fun symbol => ?_
    cases symbol <;> rfl
  simp only [hadded, hstep, ItemSet.kernel_rename]
  rw [mapM_map_result, bind_map_left, map_bind]
  refine bind_congr fun marked => ?_
  have hsteps : (marked.map (Option.map (Prod.map π id))).filterMap id =
      (marked.filterMap id).map (Prod.map π (id : Core → Core)) := by
    rw [List.filterMap_map, List.map_filterMap]
    rfl
  rw [hsteps, groups_map π.injective]
  rfl

/-- A visit finds the same states. -/
lemma visit (e : Exploration) (n : Nat) (s : ItemSet) :
    g'.visit (e.rename π) n (s.rename π) = Exploration.rename π <$> g.visit e n s := by
  unfold Augmented.visit
  rw [h.closureNonterminals, bind_map_left, map_bind]
  refine bind_congr fun nonterminals => ?_
  have hnoted : ({ s.rename π with nonterminals := some (nonterminals.map π) } : ItemSet) =
      ({ s with nonterminals := some nonterminals } : ItemSet).rename π := rfl
  rw [hnoted, ItemSet.setIndex_rename, bind_map_left, map_bind]
  refine bind_congr fun t => ?_
  rw [h.moves, bind_map_left, map_bind]
  refine bind_congr fun groups => ?_
  have hset : ({ e.rename π with states := (e.rename π).states.setIfInBounds n (t.rename π) } : Exploration) =
      ({ e with states := e.states.setIfInBounds n t } : Exploration).rename π := by
    simp [Exploration.rename]
  rw [hset, Exploration.enterAll_rename]
  simp [Exploration.rename]

/-- All states are found in the same order. -/
lemma explore (fuel n : Nat) (e : Exploration) :
    g'.explore fuel n (e.rename π) = Exploration.rename π <$> g.explore fuel n e := by
  have hstate (e : Exploration) (n : Nat) : (e.rename π).states[n]? = e.states[n]?.map (ItemSet.rename π) :=
    Array.getElem?_map
  induction fuel generalizing n e with
  | zero =>
    rw [Augmented.explore, Augmented.explore, hstate]
    cases e.states[n]? <;> rfl
  | succ fuel ih =>
    rw [Augmented.explore, Augmented.explore, hstate]
    cases e.states[n]? with
    | none => rfl
    | some s =>
      simp only [Option.map_some, h.visit, bind_map_left, map_bind]
      exact bind_congr fun e' => ih (n + 1) e'

/-- There are as many cores. -/
lemma coreCount : g'.coreCount = g.coreCount := by
  unfold Augmented.coreCount
  rw [h.rules, Array.toList_map, List.foldl_map]
  simp [Rule.rename]

/-- The automaton is the same with other symbols. -/
theorem automaton : g'.automaton = Automaton.rename π <$> g.automaton := by
  unfold Augmented.automaton
  have hexplore := h.explore (Nat.pow 2 g.coreCount) 0 Exploration.start
  rw [Exploration.rename_start] at hexplore
  rw [h.coreCount, hexplore, bind_map_left, map_bind]
  rfl

end Augmented.Renamed

end Lalr
