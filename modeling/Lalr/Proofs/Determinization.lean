import Lalr.Proofs.Exploration
import Mathlib.Computability.EpsilonNFA

/-!
# The automaton and its items

The items without lookaheads form a nondeterministic automaton.  Without reading anything, a core goes over to
the beginnings of the rules that it opens; reading the symbol after its dot, it moves the dot over it.
`Augmented.itemAutomaton` is this automaton, which knows nothing of states, kernels or the order in which they
are found, and `Augmented.Enters` are the cores that its last move brings about.

The automaton of a grammar makes it deterministic.  Following the transitions from the first state along a
string is possible exactly when some item is reached on the string, and the kernel of the state at the end
consists of the cores that the last move has brought about (`Automaton.Explored.kernelAt_follow`,
`Automaton.Explored.exists_follow_iff`).  As no two states have the same kernel and each of them lies on a way
from the first one, the states are exactly these sets.
-/

namespace Lalr

namespace Augmented

variable {g : Augmented}

/-! ### The item automaton -/

/-- The automaton of the items: without reading, a core goes over to the rules that it opens, and it reads the
symbol after its dot by moving the dot over it.  The strings on which it reaches an item are its language. -/
def itemAutomaton (g : Augmented) : εNFA Symbol Core where
  step
    | c, none => {d | ∃ n rest, g.Opens c n rest ∧ d = ⟨n, 0⟩}
    | c, some x => {d | ∃ rest, g.Marks c x rest ∧ d = c.advance}
  start := {⟨augmentingRule, 0⟩}
  accept := Set.univ

/-- The cores that the last move of the item automaton brings about on a string; where nothing is read, the
core that it starts with. -/
inductive Enters (g : Augmented) : List Symbol → Core → Prop
  /-- Before any symbol is read there is the beginning of the augmenting rule. -/
  | start : Enters g [] ⟨augmentingRule, 0⟩
  /-- The last symbol moves the dots that stand before it. -/
  | move {γ : List Symbol} {x : Symbol} {d c : Core} (hd : d ∈ g.itemAutomaton.eval γ)
      (hc : c ∈ g.itemAutomaton.step d (some x)) : Enters g (γ ++ [x]) c

/-- The closure of a set of cores under opening rules is what the set reaches. -/
lemma mem_εClosure {K : Set Core} {c : Core} :
    c ∈ g.itemAutomaton.εClosure K ↔ g.Reaches (fun d => d ∈ K) c := by
  constructor
  · intro h
    induction h with
    | base c hc => exact .kernel hc
    | step d c hc _ ih =>
      obtain ⟨n, rest, ho, rfl⟩ := hc
      exact .expand ih ho
  · intro h
    induction h with
    | kernel hc => exact εNFA.subset_εClosure _ K hc
    | @expand d n rest _ ho ih => exact εNFA.εClosure.step d _ ⟨n, rest, ho, rfl⟩ ih

/-- Nothing but the core of the augmenting rule is entered before a symbol is read. -/
lemma enters_nil {c : Core} : g.Enters [] c ↔ c = ⟨augmentingRule, 0⟩ := by
  constructor
  · intro h
    generalize hγ : ([] : List Symbol) = γ at h
    cases h with
    | start => rfl
    | move _ _ => simp at hγ
  · rintro rfl
    exact .start

/-- What is entered on a longer string comes from the items reached before its last symbol. -/
lemma enters_concat {γ : List Symbol} {x : Symbol} {c : Core} :
    g.Enters (γ ++ [x]) c ↔ ∃ d ∈ g.itemAutomaton.eval γ, c ∈ g.itemAutomaton.step d (some x) := by
  constructor
  · intro h
    generalize hδ : γ ++ [x] = δ at h
    cases h with
    | start => simp at hδ
    | @move γ' y d c hd hc =>
      obtain ⟨rfl, heq⟩ := List.append_inj' hδ rfl
      obtain rfl := List.singleton_inj.1 heq
      exact ⟨d, hd, hc⟩
  · rintro ⟨d, hd, hc⟩
    exact .move hd hc

/-- The items reached on a string are what the entered cores reach. -/
lemma mem_eval_iff {γ : List Symbol} {c : Core} :
    c ∈ g.itemAutomaton.eval γ ↔ g.Reaches (g.Enters γ) c := by
  rcases List.eq_nil_or_concat' γ with rfl | ⟨γ, x, rfl⟩
  · rw [εNFA.eval_nil, mem_εClosure]
    have hstart : (fun d => d ∈ g.itemAutomaton.start) = g.Enters [] := by
      funext d
      exact propext enters_nil.symm
    rw [hstart]
  · rw [εNFA.eval_append_singleton, εNFA.mem_stepSet_iff]
    constructor
    · rintro ⟨d, hd, hc⟩
      exact (mem_εClosure.1 hc).mono fun e he => .move hd he
    · intro h
      -- a core that is reached is reached from a single one that is entered
      induction h with
      | kernel hc =>
        obtain ⟨d, hd, hc⟩ := enters_concat.1 hc
        exact ⟨d, hd, εNFA.subset_εClosure _ _ hc⟩
      | @expand c n rest _ ho ih =>
        obtain ⟨d, hd, hc⟩ := ih
        exact ⟨d, hd, εNFA.εClosure.step c _ ⟨n, rest, ho, rfl⟩ hc⟩

/-- Some item is reached on a string exactly when some core is entered. -/
lemma nonempty_eval_iff {γ : List Symbol} :
    (g.itemAutomaton.eval γ).Nonempty ↔ ∃ c, g.Enters γ c := by
  constructor
  · rintro ⟨c, hc⟩
    induction mem_eval_iff.1 hc with
    | kernel h => exact ⟨_, h⟩
    | expand h _ ih => exact ih (mem_eval_iff.2 h)
  · rintro ⟨c, hc⟩
    exact ⟨c, mem_eval_iff.2 (.kernel hc)⟩

/-- Moving the dots of what the entered cores reach enters the cores on the longer string. -/
lemma moves_enters {γ : List Symbol} {x : Symbol} {c : Core} :
    g.Moves (g.Enters γ) x c ↔ g.Enters (γ ++ [x]) c := by
  rw [enters_concat]
  constructor
  · rintro ⟨d, rest, hd, hm, rfl⟩
    exact ⟨d, mem_eval_iff.2 hd, rest, hm, rfl⟩
  · rintro ⟨d, hd, rest, hm, rfl⟩
    exact ⟨d, rest, mem_eval_iff.1 hd, hm, rfl⟩

end Augmented

/-! ### Following transitions -/

namespace Automaton

variable {g : Augmented} {a : Automaton}

/-- The state that a string leads to, symbol by symbol. -/
def follow (a : Automaton) (n : Nat) (γ : List Symbol) : Option Nat :=
  γ.foldlM a.goto? n

/-- The last symbol of a string leads on from where the others lead. -/
lemma follow_concat (n : Nat) (γ : List Symbol) (x : Symbol) :
    a.follow n (γ ++ [x]) = (a.follow n γ).bind fun m => a.goto? m x := by
  simp [follow]

/-- Every state lies on a way from the first one. -/
lemma Explored.exists_follow_eq (h : a.Explored g) {n : Nat} (hn : n < a.states.size) :
    ∃ γ, a.follow 0 γ = some n := by
  induction n using Nat.strong_induction_on with
  | _ n ih =>
    by_cases hzero : n = 0
    · subst hzero
      exact ⟨[], rfl⟩
    · obtain ⟨k, x, hk, hgoto⟩ := h.entered (Nat.pos_of_ne_zero hzero) hn
      obtain ⟨γ, hγ⟩ := ih k hk (hk.trans hn)
      refine ⟨γ ++ [x], ?_⟩
      rw [follow_concat, hγ]
      exact hgoto

/-- The kernel of the state that a string leads to consists of the cores that are entered on it. -/
lemma Explored.kernelAt_follow (h : a.Explored g) {γ : List Symbol} {n : Nat}
    (hn : a.follow 0 γ = some n) : KernelAt a.states n = g.Enters γ := by
  induction γ using List.reverseRecOn generalizing n with
  | nil =>
    obtain rfl : 0 = n := Option.some.inj hn
    funext c
    exact propext ((h.start c).trans Augmented.enters_nil.symm)
  | append_singleton γ x ih =>
    rw [follow_concat] at hn
    obtain ⟨m, hm, hgoto⟩ := Option.bind_eq_some_iff.1 hn
    obtain ⟨-, -, -, hmoves⟩ := h.target hgoto
    funext c
    rw [propext (hmoves c), ih hm, propext Augmented.moves_enters]

/-- A string leads to a state exactly when some core is entered on it. -/
lemma Explored.exists_follow_iff (h : a.Explored g) {γ : List Symbol} :
    (∃ n, a.follow 0 γ = some n) ↔ ∃ c, g.Enters γ c := by
  induction γ using List.reverseRecOn with
  | nil => exact ⟨fun _ => ⟨_, .start⟩, fun _ => ⟨0, rfl⟩⟩
  | append_singleton γ x ih =>
    constructor
    · rintro ⟨n, hn⟩
      have hkernel := h.kernelAt_follow hn
      rw [follow_concat] at hn
      obtain ⟨m, -, hgoto⟩ := Option.bind_eq_some_iff.1 hn
      rw [← hkernel]
      exact h.exists_kernelAt_of_goto hgoto
    · rintro ⟨c, hc⟩
      obtain ⟨d, rest, hd, hm, -⟩ := Augmented.moves_enters.2 hc
      obtain ⟨m, hfollow⟩ :=
        ih.2 (Augmented.nonempty_eval_iff.1 ⟨d, Augmented.mem_eval_iff.2 hd⟩)
      rw [← h.kernelAt_follow hfollow] at hd
      obtain ⟨n, hgoto⟩ := h.exists_target ⟨d, rest, hd, hm⟩
      refine ⟨n, ?_⟩
      rw [follow_concat, hfollow]
      exact hgoto

end Automaton

namespace Grammar

/-- The states of a grammar that passes its checks are found, and they are the sets of cores that the item
automaton enters.  Each state consists of the items of its kernel, one for each core; no two states have the
same kernel, and each of them lies on a way from the first one.  A string can be followed from the first state
exactly when the item automaton reaches an item on it, and the kernel at the end consists of the cores that the
last move has brought about. -/
theorem automaton_determinizes_items {grammar : Grammar} {g : Augmented} (hg : grammar.augment = .ok g) :
    ∃ a, g.automaton = .ok a ∧
      (∀ s ∈ a.states, (s.items.map Item.core).Nodup ∧ ∀ i ∈ s.items, i.isKernel = true) ∧
      (∀ (n m : Nat) (s t : ItemSet), a.states[n]? = some s → a.states[m]? = some t →
        (∀ c, s.HasKernel c ↔ t.HasKernel c) → n = m) ∧
      (∀ n, n < a.states.size → ∃ γ, a.follow 0 γ = some n) ∧
      ∀ γ, ((∃ n, a.follow 0 γ = some n) ↔ (g.itemAutomaton.eval γ).Nonempty) ∧
        ∀ n, a.follow 0 γ = some n →
          ∃ s, a.states[n]? = some s ∧ ∀ c, s.HasKernel c ↔ g.Enters γ c := by
  obtain ⟨a, ha, hexplored, hitems⟩ := Augmented.exists_automaton_eq_ok (wellFormed_of_augment hg)
  refine ⟨a, ha, fun s hs => ⟨(hitems s hs).1, fun i hi => ?_⟩, fun n m s t hs ht hiff => ?_,
    fun n hn => hexplored.exists_follow_eq hn, fun γ => ⟨?_, fun n hn => ?_⟩⟩
  · -- the kernel item with this core is the item itself
    obtain ⟨j, hj, hkernel, hcore⟩ := (hitems s hs).2 i.core ⟨i, hi, rfl⟩
    rwa [← List.inj_on_of_nodup_map (hitems s hs).1 hj hi hcore]
  · refine hexplored.injective (Array.getElem?_eq_some_iff.1 hs).1 (Array.getElem?_eq_some_iff.1 ht).1 ?_
    rw [kernelAt_eq hs, kernelAt_eq ht]
    exact funext fun c => propext (hiff c)
  · rw [hexplored.exists_follow_iff, Augmented.nonempty_eval_iff]
  · have hkernel := hexplored.kernelAt_follow hn
    obtain ⟨c, hc⟩ := hexplored.exists_follow_iff.1 ⟨n, hn⟩
    rw [← hkernel] at hc
    obtain ⟨s, hs, -⟩ := hc
    rw [kernelAt_eq hs] at hkernel
    exact ⟨s, hs, fun d => by rw [hkernel]⟩

/-- In the grammar of nested pairs, the string `a S b` leads to the state of the complete rule `S ::= a S b`,
and that is the only core which the item automaton enters on it. -/
theorem automaton_determinizes_items_nested :
    ∃ g a n s, nested.augment = .ok g ∧ g.automaton = .ok a ∧
      a.follow 0 [⟨10⟩, ⟨1⟩, ⟨11⟩] = some n ∧ a.states[n]? = some s ∧ s.kernelKey = [⟨1, 3⟩] ∧
      ∀ c, g.Enters [⟨10⟩, ⟨1⟩, ⟨11⟩] c ↔ c = ⟨1, 3⟩ := by
  have hrun : (do
      let g ← nested.augment.toOption
      let a ← g.automaton.toOption
      let n ← a.follow 0 [⟨10⟩, ⟨1⟩, ⟨11⟩]
      let s ← a.states[n]?
      some s.kernelKey) = some [⟨1, 3⟩] := by decide +kernel
  obtain ⟨g, hg, hrun⟩ := Option.bind_eq_some_iff.1 hrun
  obtain ⟨a, ha, hrun⟩ := Option.bind_eq_some_iff.1 hrun
  obtain ⟨n, hn, hrun⟩ := Option.bind_eq_some_iff.1 hrun
  obtain ⟨s, hs, hrun⟩ := Option.bind_eq_some_iff.1 hrun
  have hkey : s.kernelKey = [⟨1, 3⟩] := Option.some.inj hrun
  obtain ⟨a', ha', -, -, -, hall⟩ := automaton_determinizes_items (toOption_eq_some_iff.1 hg)
  obtain rfl := Except.ok.inj ((toOption_eq_some_iff.1 ha).symm.trans ha')
  obtain ⟨s', hs', hkernel⟩ := (hall _).2 n hn
  obtain rfl := Option.some.inj (hs.symm.trans hs')
  refine ⟨g, a, n, s, toOption_eq_some_iff.1 hg, ha', hn, hs, hkey, fun c => ?_⟩
  rw [← hkernel, ← ItemSet.mem_kernelKey, hkey, List.mem_singleton]

end Grammar

end Lalr
