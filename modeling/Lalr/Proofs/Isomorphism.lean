import Lalr.Proofs.Cells
import Lalr.Proofs.Translation
import Mathlib.Logic.Equiv.Basic
import Mathlib.Logic.Equiv.Fin.Basic
import Mathlib.Data.Fintype.Card

/-!
# Isomorphic grammars

Two augmented grammars are isomorphic when a permutation of the symbols and a permutation of the rule numbers
carry the rules and kinds of one over to the other.  Everything that the construction of a table rests on is
carried over with them: what stands after a dot, closures, what begins a string, and the lookaheads that arise and
travel.  Each of these needs only one direction, because the inverse permutations are an isomorphism as well.

The automata of isomorphic grammars have the same states up to their numbers (`Automaton.exists_aligned`): from the
first state on, the kernels that transitions lead to correspond.  Where the kernels correspond, so do the
transitions, the lookaheads and the complete items, and a cell is determined by these
(`Automaton.Holds.unique`).  Therefore the tables have the same cells up to the numbers of states and rules and the
names of symbols (`Automaton.Aligned.action?_eq`).
-/

namespace Lalr

/-! ### Matching numbers -/

/-- Two initial segments that a relation matches one to one are of the same length, and the matching extends to a
permutation of all numbers. -/
lemma exists_perm_of_matching {s s' : Nat} {R : Nat → Nat → Prop} (hto : ∀ n < s, ∃ m < s', R n m)
    (hof : ∀ m < s', ∃ n < s, R n m) (hfunctional : ∀ {n m m'}, m < s' → m' < s' → R n m → R n m' → m = m')
    (hinjective : ∀ {n n' m}, n < s → n' < s → R n m → R n' m → n = n') :
    ∃ φ : Equiv.Perm Nat, (∀ n, φ n < s' ↔ n < s) ∧ ∀ n < s, R n (φ n) := by
  choose f hlt hR using hto
  let F : Fin s → Fin s' := fun n => ⟨f n n.2, hlt n n.2⟩
  have hF : Function.Bijective F := by
    constructor
    · intro n n' heq
      have hm : f n n.2 = f n' n'.2 := congrArg Fin.val heq
      exact Fin.ext (hinjective n.2 n'.2 (hR n n.2) (hm ▸ hR n' n'.2))
    · intro m
      obtain ⟨n, hn, hnm⟩ := hof m m.2
      exact ⟨⟨n, hn⟩, Fin.ext (hfunctional (hlt n hn) m.2 (hR n hn) hnm)⟩
  obtain rfl : s = s' := by simpa using Fintype.card_of_bijective hF
  let φ : Equiv.Perm Nat := Equiv.Perm.extendDomain (Equiv.ofBijective F hF) Fin.equivSubtype
  have hφ {n : Nat} (hn : n < s) : φ n = f n hn :=
    Equiv.Perm.extendDomain_apply_subtype (Equiv.ofBijective F hF) Fin.equivSubtype hn
  refine ⟨φ, fun n => ?_, fun n hn => ?_⟩
  · by_cases hn : n < s
    · rw [hφ hn]
      exact ⟨fun _ => hn, fun _ => hlt n hn⟩
    · have heq : φ n = n :=
        Equiv.Perm.extendDomain_apply_not_subtype (Equiv.ofBijective F hF) Fin.equivSubtype hn
      rw [heq]
  · rw [hφ hn]
    exact hR n hn

/-! ### Grammars -/

/-- The core under another number of its rule. -/
def Core.renumber (ψ : Nat → Nat) (c : Core) : Core := { c with rule := ψ c.rule }

@[simp] lemma Core.renumber_symm_renumber (ψ : Equiv.Perm Nat) (c : Core) :
    (c.renumber ψ).renumber ψ.symm = c := by
  simp [renumber]

@[simp] lemma Core.renumber_renumber_symm (ψ : Equiv.Perm Nat) (c : Core) :
    (c.renumber ψ.symm).renumber ψ = c := by
  simp [renumber]

namespace Augmented

/-- The rules and kinds of the first grammar, with other symbols and other rule numbers, are those of the
second. -/
structure Isomorphic (ρ : Equiv.Perm Symbol) (ψ : Equiv.Perm Nat) (g g' : Augmented) : Prop where
  rule : ∀ k : Nat, g'.rules[ψ k]?.map (fun r => (r.lhs, r.rhs)) =
    g.rules[k]?.map fun r => (ρ r.lhs, r.rhs.map ρ)
  kind : ∀ x : Symbol, g'.kinds[ρ x]? = g.kinds[x]?
  eof : ρ Symbol.eof = Symbol.eof
  placeholder : ρ Symbol.placeholder = Symbol.placeholder
  augmenting : ψ 0 = 0

namespace Isomorphic

variable {ρ : Equiv.Perm Symbol} {ψ : Equiv.Perm Nat} {g g' : Augmented} (h : g.Isomorphic ρ ψ g')
include h

/-- The inverse permutations lead back. -/
lemma symm : g'.Isomorphic ρ.symm ψ.symm g where
  rule k := by
    have hrule := h.rule (ψ.symm k)
    rw [Equiv.apply_symm_apply] at hrule
    cases hk : g'.rules[k]? with
    | none => cases hk' : g.rules[ψ.symm k]? <;> simp_all
    | some r' =>
      cases hk' : g.rules[ψ.symm k]? with
      | none => simp_all
      | some r => simp_all
  kind x := by
    rw [← h.kind, Equiv.apply_symm_apply]
  eof := by rw [Equiv.symm_apply_eq, h.eof]
  placeholder := by rw [Equiv.symm_apply_eq, h.placeholder]
  augmenting := by rw [Equiv.symm_apply_eq, h.augmenting]

/-- Each rule has its image. -/
lemma exists_rule {k : Nat} {r : Rule} (hr : g.rules[k]? = some r) :
    ∃ r', g'.rules[ψ k]? = some r' ∧ r'.lhs = ρ r.lhs ∧ r'.rhs = r.rhs.map ρ := by
  have hrule := h.rule k
  rw [hr, Option.map_some, Option.map_eq_some_iff] at hrule
  obtain ⟨r', hr', heq⟩ := hrule
  obtain ⟨hlhs, hrhs⟩ := Prod.mk.inj heq
  exact ⟨r', hr', hlhs, hrhs⟩

/-- Only the beginning of the augmenting rule corresponds to itself. -/
lemma renumber_eq_start_iff {c : Core} : c.renumber ψ = ⟨0, 0⟩ ↔ c = ⟨0, 0⟩ := by
  have hstart : (⟨0, 0⟩ : Core).renumber ψ = ⟨0, 0⟩ := by simp [Core.renumber, h.augmenting]
  constructor
  · intro heq
    rw [← Core.renumber_symm_renumber ψ c, heq, ← hstart, Core.renumber_symm_renumber, hstart]
  · rintro rfl
    exact hstart

/-- The images of terminals are terminals. -/
lemma isTerminal {x : Symbol} (hx : g.kinds.IsTerminal x) : g'.kinds.IsTerminal (ρ x) :=
  (h.kind x).trans hx

/-- The images of nonterminals are nonterminals. -/
lemma isNonterminal {x : Symbol} (hx : g.kinds.IsNonterminal x) : g'.kinds.IsNonterminal (ρ x) :=
  (h.kind x).trans hx

/-- A symbol has a kind exactly when its image has. -/
lemma mem_kinds_iff {x : Symbol} : ρ x ∈ g'.kinds ↔ x ∈ g.kinds := by
  rw [Std.ExtTreeMap.mem_iff_isSome_getElem?, h.kind, Std.ExtTreeMap.mem_iff_isSome_getElem?]

/-- The images of productions are productions. -/
lemma mem_productions {A : Symbol} {ω : Body} (hp : (A, ω) ∈ g.productions) :
    (ρ A, ω.map ρ) ∈ g'.productions := by
  obtain ⟨n, r, hr, rfl, rfl⟩ := Augmented.mem_productions.1 hp
  obtain ⟨r', hr', hlhs, hrhs⟩ := h.exists_rule hr
  exact Augmented.mem_productions.2 ⟨ψ n, r', hr', hlhs, hrhs⟩

/-- The image of the symbol after a dot stands after the dot. -/
lemma marks {c : Core} {x : Symbol} {rest : Body} (hm : g.Marks c x rest) :
    g'.Marks (c.renumber ψ) (ρ x) (rest.map ρ) := by
  obtain ⟨r, hr, hdrop⟩ := hm
  obtain ⟨r', hr', -, hrhs⟩ := h.exists_rule hr
  refine ⟨r', hr', ?_⟩
  change r'.rhs.drop c.dot = _
  rw [hrhs, ← List.map_drop, hdrop, List.map_cons]

/-- Cores open the images of the rules that they open. -/
lemma opens {c : Core} {n : Nat} {rest : Body} (ho : g.Opens c n rest) :
    g'.Opens (c.renumber ψ) (ψ n) (rest.map ρ) := by
  obtain ⟨r, hr, hm⟩ := ho
  obtain ⟨r', hr', hlhs, -⟩ := h.exists_rule hr
  exact ⟨r', hr', hlhs ▸ h.marks hm⟩

/-- Complete cores stay complete. -/
lemma completes {c : Core} {r : Rule} (hc : g.Completes c r) : ∃ r', g'.Completes (c.renumber ψ) r' := by
  obtain ⟨hr, hdot⟩ := hc
  obtain ⟨r', hr', -, hrhs⟩ := h.exists_rule hr
  refine ⟨r', hr', ?_⟩
  rw [hrhs, List.length_map]
  exact hdot

/-- The images of nullable symbols are nullable. -/
lemma nullable {x : Symbol} (hx : Nullable g.productions x) : Nullable g'.productions (ρ x) := by
  induction hx with
  | of_production hp _ ih =>
    refine .of_production (h.mem_productions hp) fun y hy => ?_
    obtain ⟨z, hz, rfl⟩ := List.mem_map.1 hy
    exact ih z hz

/-- The image of what begins a string begins its image. -/
lemma starts {u : Body} {t : Symbol} (ht : Starts g.productions g.kinds u t) :
    Starts g'.productions g'.kinds (u.map ρ) (ρ t) := by
  induction ht with
  | terminal ht => exact .terminal (h.isTerminal ht)
  | expand hp _ ih => exact .expand (h.mem_productions hp) ih
  | skip hx _ ih => exact .skip (h.nullable hx) ih

/-- The image of what begins a string with a symbol behind it begins the image. -/
lemma leads {u : Body} {y t : Symbol} (ht : Leads g.productions g.kinds u y t) :
    Leads g'.productions g'.kinds (u.map ρ) (ρ y) (ρ t) := by
  rcases ht with ht | ⟨hnull, rfl⟩
  · exact Or.inl (h.starts ht)
  · refine Or.inr ⟨fun x hx => ?_, rfl⟩
    obtain ⟨z, hz, rfl⟩ := List.mem_map.1 hx
    exact h.nullable (hnull z hz)

/-- Closures without lookaheads are carried over. -/
lemma reaches {K K' : Core → Prop} (hK : ∀ c, K c → K' (c.renumber ψ)) {c : Core} (hc : g.Reaches K c) :
    g'.Reaches K' (c.renumber ψ) := by
  induction hc with
  | kernel hc => exact .kernel (hK _ hc)
  | expand _ ho ih => exact .expand ih (h.opens ho)

/-- Closures with lookaheads are carried over. -/
lemma closes {K K' : Core → Prop} {L L' : Core → Symbol → Prop} (hK : ∀ c, K c → K' (c.renumber ψ))
    (hL : ∀ c x, L c x → L' (c.renumber ψ) (ρ x)) {c : Core} {x : Symbol} (hc : g.Closes K L c x) :
    g'.Closes K' L' (c.renumber ψ) (ρ x) := by
  induction hc with
  | seed hc => exact .seed (hL _ _ hc)
  | begin hc ho hx => exact .begin (hK _ hc) (h.opens ho) (h.starts hx)
  | expand _ ho hx ih => exact .expand ih (h.opens ho) (h.leads hx)

/-- Probes are carried over. -/
lemma probes {k c : Core} {x : Symbol} (hc : g.Probes k c x) : g'.Probes (k.renumber ψ) (c.renumber ψ) (ρ x) := by
  refine h.closes (fun d hd => ?_) (fun d y hd => ?_) hc
  · rw [hd]
  · obtain ⟨rfl, rfl⟩ := hd
    exact ⟨rfl, h.placeholder⟩

/-- What a kernel meets is carried over. -/
lemma meets {K K' : Core → Prop} (hK : ∀ c, K c → K' (c.renumber ψ)) {x : Symbol} (hx : g.Meets K x) :
    g'.Meets K' (ρ x) := by
  obtain ⟨c, rest, hc, hm⟩ := hx
  exact ⟨_, _, h.reaches hK hc, h.marks hm⟩

/-- The moves out of a kernel are carried over. -/
lemma moves {K K' : Core → Prop} (hK : ∀ c, K c → K' (c.renumber ψ)) {x : Symbol} {c : Core}
    (hc : g.Moves K x c) : g'.Moves K' (ρ x) (c.renumber ψ) := by
  obtain ⟨d, rest, hd, hm, rfl⟩ := hc
  exact ⟨_, _, h.reaches hK hd, h.marks hm, rfl⟩

end Isomorphic

end Augmented

/-! ### Automata -/

namespace Automaton

/-- The kernels of corresponding states correspond. -/
structure Aligned (ρ : Equiv.Perm Symbol) (ψ φ : Equiv.Perm Nat) (g g' : Augmented) (a a' : Automaton) : Prop where
  grammar : g.Isomorphic ρ ψ g'
  size : ∀ n, φ n < a'.states.size ↔ n < a.states.size
  kernel : ∀ n c, KernelAt a'.states (φ n) (c.renumber ψ) ↔ KernelAt a.states n c

/-- The images of the moves out of corresponding kernels are the moves. -/
lemma moves_iff_of_kernel {ρ : Equiv.Perm Symbol} {ψ : Equiv.Perm Nat} {g g' : Augmented}
    (h : g.Isomorphic ρ ψ g') {K K' : Core → Prop} (hK : ∀ c, K' (c.renumber ψ) ↔ K c) {x : Symbol} {c : Core} :
    g'.Moves K' (ρ x) (c.renumber ψ) ↔ g.Moves K x c := by
  constructor
  · intro hmoves
    have hK' (d : Core) (hd : K' d) : K (d.renumber ψ.symm) := by
      rwa [← hK, Core.renumber_renumber_symm]
    have hback := h.symm.moves hK' hmoves
    rwa [Equiv.symm_apply_apply, Core.renumber_symm_renumber] at hback
  · exact h.moves fun d hd => (hK d).2 hd

section

variable {ρ : Equiv.Perm Symbol} {ψ : Equiv.Perm Nat} {g g' : Augmented} {a a' : Automaton}

/-- Every state has a corresponding one. -/
lemma exists_kernelAt_iff (h : g.Isomorphic ρ ψ g') (ha : a.Explored g) (ha' : a'.Explored g') {n : Nat}
    (hn : n < a.states.size) :
    ∃ m < a'.states.size, ∀ c, KernelAt a'.states m (c.renumber ψ) ↔ KernelAt a.states n c := by
  -- a state is found from an earlier one, which has a corresponding state with the same way out
  induction n using Nat.strong_induction_on with
  | _ n ih =>
    by_cases hzero : n = 0
    · subst hzero
      refine ⟨0, ha'.size_pos, fun c => ?_⟩
      rw [ha'.start, ha.start, h.renumber_eq_start_iff]
    · obtain ⟨k, x, hk, hgoto⟩ := ha.entered (Nat.pos_of_ne_zero hzero) hn
      obtain ⟨-, -, hmeets, hmoves⟩ := ha.target hgoto
      obtain ⟨l, -, hkernel⟩ := ih k hk (hk.trans hn)
      obtain ⟨m, hgoto'⟩ := ha'.exists_target (h.meets (fun c hc => (hkernel c).2 hc) hmeets)
      obtain ⟨-, hm, -, hmoves'⟩ := ha'.target hgoto'
      refine ⟨m, hm, fun c => ?_⟩
      rw [hmoves', hmoves, moves_iff_of_kernel h hkernel]

/-- Only the kernels of the states that there are have to correspond. -/
lemma aligned_of_lt {φ : Equiv.Perm Nat} (h : g.Isomorphic ρ ψ g')
    (hsize : ∀ n, φ n < a'.states.size ↔ n < a.states.size)
    (hkernel : ∀ n < a.states.size, ∀ c, KernelAt a'.states (φ n) (c.renumber ψ) ↔ KernelAt a.states n c) :
    Aligned ρ ψ φ g g' a a' := by
  refine ⟨h, hsize, fun n c => ?_⟩
  by_cases hn : n < a.states.size
  · exact hkernel n hn c
  · constructor
    · intro hc
      exact absurd ((hsize n).1 (lt_size_of_reaches (g := g') (.kernel hc))) hn
    · intro hc
      exact absurd (lt_size_of_reaches (g := g) (.kernel hc)) hn

/-- The automata of isomorphic grammars have the same states up to their numbers. -/
theorem exists_aligned (h : g.Isomorphic ρ ψ g') (ha : a.Explored g) (ha' : a'.Explored g') :
    ∃ φ, Aligned ρ ψ φ g g' a a' := by
  have hback {m n : Nat} (hm : ∀ c, KernelAt a.states n (c.renumber ψ.symm) ↔ KernelAt a'.states m c) :
      ∀ c, KernelAt a'.states m (c.renumber ψ) ↔ KernelAt a.states n c := by
    intro c
    rw [← hm, Core.renumber_symm_renumber]
  have hfunctional {n m m' : Nat} (hm : m < a'.states.size) (hm' : m' < a'.states.size)
      (hnm : ∀ c, KernelAt a'.states m (c.renumber ψ) ↔ KernelAt a.states n c)
      (hnm' : ∀ c, KernelAt a'.states m' (c.renumber ψ) ↔ KernelAt a.states n c) : m = m' := by
    refine ha'.injective hm hm' (funext fun c => propext ?_)
    rw [← Core.renumber_renumber_symm ψ c, hnm, hnm']
  have hinjective {n n' m : Nat} (hn : n < a.states.size) (hn' : n' < a.states.size)
      (hnm : ∀ c, KernelAt a'.states m (c.renumber ψ) ↔ KernelAt a.states n c)
      (hnm' : ∀ c, KernelAt a'.states m (c.renumber ψ) ↔ KernelAt a.states n' c) : n = n' := by
    refine ha.injective hn hn' (funext fun c => propext ?_)
    rw [← hnm, hnm']
  obtain ⟨φ, hsize, hkernel⟩ := exists_perm_of_matching (fun n hn => exists_kernelAt_iff h ha ha' hn)
    (fun m hm => (exists_kernelAt_iff h.symm ha' ha hm).imp fun n hn => ⟨hn.1, hback hn.2⟩)
    hfunctional hinjective
  exact ⟨φ, aligned_of_lt h hsize hkernel⟩

end

namespace Aligned

variable {ρ : Equiv.Perm Symbol} {ψ φ : Equiv.Perm Nat} {g g' : Augmented} {a a' : Automaton}
  (h : Aligned ρ ψ φ g g' a a')
include h

/-- The inverse permutations lead back. -/
lemma symm : Aligned ρ.symm ψ.symm φ.symm g' g a' a where
  grammar := h.grammar.symm
  size n := by rw [← h.size, Equiv.apply_symm_apply]
  kernel n c := by rw [← h.kernel, Equiv.apply_symm_apply, Core.renumber_renumber_symm]

section

variable (ha : a.Explored g) (ha' : a'.Explored g')
include ha ha'

/-- The first states correspond. -/
lemma start : φ 0 = 0 := by
  refine ha'.injective ((h.size 0).2 ha.size_pos) ha'.size_pos (funext fun c => propext ?_)
  rw [← Core.renumber_renumber_symm ψ c, h.kernel, ha.start, ha'.start, h.grammar.renumber_eq_start_iff]

/-- A transition leads to the corresponding state. -/
lemma goto?_eq_some {n m : Nat} {x : Symbol} (hgoto : a.goto? n x = some m) :
    a'.goto? (φ n) (ρ x) = some (φ m) := by
  obtain ⟨-, hm, hmeets, hmoves⟩ := ha.target hgoto
  obtain ⟨m', hgoto'⟩ := ha'.exists_target (h.grammar.meets (fun c hc => (h.kernel n c).2 hc) hmeets)
  obtain ⟨-, hm', -, hmoves'⟩ := ha'.target hgoto'
  obtain rfl : m' = φ m := by
    refine ha'.injective hm' ((h.size m).2 hm) (funext fun c => propext ?_)
    rw [← Core.renumber_renumber_symm ψ c, hmoves', moves_iff_of_kernel h.grammar (h.kernel n), h.kernel, hmoves]
  exact hgoto'

/-- Transitions correspond. -/
lemma goto?_eq (n : Nat) (x : Symbol) : a'.goto? (φ n) (ρ x) = (a.goto? n x).map φ := by
  cases hgoto : a.goto? n x with
  | some m => exact h.goto?_eq_some ha ha' hgoto
  | none =>
    by_contra hne
    obtain ⟨m, hm⟩ := Option.ne_none_iff_exists'.1 hne
    have hback := h.symm.goto?_eq_some ha' ha hm
    rw [Equiv.symm_apply_apply, Equiv.symm_apply_apply, hgoto] at hback
    cases hback

/-- The lookaheads of kernel cores are carried over. -/
lemma carried (wf' : g'.WellFormed) {site : Site} {x : Symbol} (hx : a.Carried g site x) :
    a'.Carried g' ⟨φ site.state, site.core.renumber ψ⟩ (ρ x) := by
  induction hx with
  | start =>
    rw [h.grammar.eof, h.start ha ha', h.grammar.renumber_eq_start_iff.2 rfl]
    exact .start
  | @arises target x hx =>
    obtain ⟨n, k, c, y, rest, m, hk, hc, hne, hm, hgoto, rfl⟩ := hx
    have hx' : ρ x ≠ Symbol.placeholder :=
      wf'.ne_placeholder (h.grammar.isTerminal (hc.isTerminal hne))
    exact .arises ⟨φ n, _, _, ρ y, _, φ m, (h.kernel n k).2 hk, h.grammar.probes hc, hx', h.grammar.marks hm,
      h.goto?_eq_some ha ha' hgoto, rfl⟩
  | link _ hl ih =>
    obtain ⟨hk, c, y, rest, m, hc, hm, hgoto, rfl⟩ := hl
    have hc' := h.grammar.probes hc
    rw [h.grammar.placeholder] at hc'
    exact .link ih ⟨(h.kernel _ _).2 hk, _, ρ y, _, φ m, hc', h.grammar.marks hm,
      h.goto?_eq_some ha ha' hgoto, rfl⟩

end

section

variable (wf : g.WellFormed) (wf' : g'.WellFormed) (ha : a.Closed g) (ha' : a'.Closed g')
include wf' ha ha'

/-- The rules of complete items that look at a symbol are carried over. -/
lemma reducible {n k : Nat} {x : Symbol} (hk : a.Reducible g n x k) :
    a'.Reducible g' (φ n) (ρ x) (ψ k) := by
  obtain ⟨c, r, rfl, hc, hlooks⟩ := hk
  obtain ⟨r', hc'⟩ := h.grammar.completes hc
  refine ⟨c.renumber ψ, r', rfl, hc', ha'.looksAt_iff_closes.2 ?_⟩
  refine h.grammar.closes (fun d hd => (h.kernel n d).2 hd) (fun d y hd => ?_) (ha.looksAt_iff_closes.1 hlooks)
  exact ⟨(h.kernel n d).2 hd.1, h.carried ha.explored ha'.explored wf' hd.2⟩

include wf

/-- The rules of complete items that look at a symbol correspond. -/
lemma reducible_iff {n k : Nat} {x : Symbol} :
    a'.Reducible g' (φ n) (ρ x) (ψ k) ↔ a.Reducible g n x k := by
  constructor
  · intro hk
    have hback := h.symm.reducible wf ha' ha hk
    rwa [Equiv.symm_apply_apply, Equiv.symm_apply_apply, Equiv.symm_apply_apply] at hback
  · exact h.reducible wf' ha ha'

end

end Aligned

end Automaton

/-! ### Cells -/

namespace Resolution

/-- What a cell holds is determined by the transition and by the set of rules. -/
lemma Settles.unique {target : Option Nat} {atEnd : Prop} {rules rules' : List Nat} {action action' : Option Action}
    (hrules : ∀ k, k ∈ rules ↔ k ∈ rules') (h : Settles target atEnd rules action)
    (h' : Settles target atEnd rules' action') : action = action' := by
  rcases action with _ | (_ | m | k | set | m) <;> rcases action' with _ | (_ | m' | k' | set' | m')
  case some.reduceMulti.some.reduceMulti =>
    obtain ⟨-, -, hset, -⟩ := h
    obtain ⟨-, -, hset', -⟩ := h'
    have heq : set = set' := Std.ExtTreeSet.ext_mem fun k => by rw [hset, hset', hrules]
    rw [heq]
  -- any other two actions are the same or exclude each other
  all_goals simp only [Settles] at h h' <;> grind

/-- Other numbers for states and rules make a cell hold the action with these numbers. -/
lemma Settles.renumber {target : Option Nat} {atEnd : Prop} {rules : List Nat} {action : Option Action}
    (h : Settles target atEnd rules action) {ν : Renumbering} (hν : Function.Injective ν.rule)
    (hzero : ν.rule 0 = 0) :
    Settles (target.map ν.state) atEnd (rules.map ν.rule) (action.map (Action.renumber ν)) := by
  rcases action with _ | (_ | m | k | set | m)
  case some.reduceMulti =>
    obtain ⟨htarget, haccept, hset, k, hk, l, hl, hne, hk0, hl0⟩ := h
    have hzero' {k : Nat} : ν.rule k = 0 ↔ k = 0 := by simpa [hzero] using hν.eq_iff (a := k) (b := 0)
    refine ⟨by rw [htarget]; rfl, ?_, fun n => ?_, ν.rule k, List.mem_map_of_mem hk, ν.rule l,
      List.mem_map_of_mem hl, fun heq => hne (hν heq), fun heq => hk0 (hzero'.1 heq),
      fun heq => hl0 (hzero'.1 heq)⟩
    · intro hend hmem
      obtain ⟨n, hn, heq⟩ := List.mem_map.1 hmem
      exact haccept hend (hzero'.1 heq ▸ hn)
    · rw [RuleSet.mem_map, List.mem_map]
      constructor
      · rintro ⟨n, hn, rfl⟩
        obtain ⟨hn0, hn⟩ := (hset n).1 hn
        exact ⟨fun heq => hn0 (hzero'.1 heq), n, hn, rfl⟩
      · rintro ⟨hn0, n, hn, rfl⟩
        exact ⟨n, (hset n).2 ⟨fun heq => hn0 (hzero'.2 heq), hn⟩, rfl⟩
  all_goals simp only [Settles, Option.map_none, Option.map_some, Action.renumber] at h ⊢ <;> grind

end Resolution

namespace Automaton

/-- What a cell holds is determined by its automaton. -/
lemma Holds.unique {g : Augmented} {a : Automaton} {n : Nat} {x : Symbol} {action action' : Option Action}
    (hx : x ∈ g.kinds) (h : a.Holds g n x action) (h' : a.Holds g n x action') : action = action' := by
  rcases Augmented.isTerminal_or_isNonterminal hx with hx | hx
  · obtain ⟨rules, hrules, hsettles⟩ := h.2 hx
    obtain ⟨rules', hrules', hsettles'⟩ := h'.2 hx
    exact hsettles.unique (fun k => (hrules k).trans (hrules' k).symm) hsettles'
  · rw [h.1 hx, h'.1 hx]

namespace Aligned

variable {ρ : Equiv.Perm Symbol} {ψ φ : Equiv.Perm Nat} {g g' : Augmented} {a a' : Automaton}
  (h : Aligned ρ ψ φ g g' a a') (wf : g.WellFormed) (wf' : g'.WellFormed) (ha : a.Closed g) (ha' : a'.Closed g')
include h wf wf' ha ha'

/-- Corresponding cells hold corresponding actions. -/
lemma holds {n : Nat} {x : Symbol} {action : Option Action} (hx : a.Holds g n x action) :
    a'.Holds g' (φ n) (ρ x) (action.map (Action.renumber ⟨φ, ψ⟩)) := by
  have hgoto := h.goto?_eq ha.explored ha'.explored n x
  have heof : (ρ x = Symbol.eof) = (x = Symbol.eof) := by
    rw [← ρ.injective.eq_iff (a := x), h.grammar.eof]
  constructor
  · intro hnonterminal
    have hkind : g.kinds.IsNonterminal x := (h.grammar.kind x).symm.trans hnonterminal
    rw [hx.1 hkind, hgoto, Option.map_map, Option.map_map]
    rfl
  · intro hterminal
    have hkind : g.kinds.IsTerminal x := (h.grammar.kind x).symm.trans hterminal
    obtain ⟨rules, hrules, hsettles⟩ := hx.2 hkind
    rw [hgoto, heof]
    refine ⟨rules.map ψ, fun k => ?_, hsettles.renumber (ν := ⟨φ, ψ⟩) ψ.injective h.grammar.augmenting⟩
    rw [← ψ.apply_symm_apply k, h.reducible_iff wf wf' ha ha', List.mem_map_of_injective ψ.injective, hrules]

/-- The tables of isomorphic grammars have the same cells up to numbers and symbols. -/
theorem action?_eq {t t' : Table} (ht : t.Fits g a) (ht' : t'.Fits g' a') (n : Nat) (x : Symbol) :
    t'.action? (φ n) (ρ x) = (t.action? n x).map (Action.renumber ⟨φ, ψ⟩) := by
  by_cases hcell : n < a.states.size ∧ x ∈ g.kinds
  · obtain ⟨hn, hx⟩ := hcell
    have hn' := (h.size n).2 hn
    have hx' := h.grammar.mem_kinds_iff.2 hx
    exact (ht'.holds hn' hx').unique hx' (h.holds wf wf' ha ha' (ht.holds hn hx))
  · rw [ht.action?_eq_none hcell, Option.map_none]
    refine ht'.action?_eq_none fun hcell' => hcell ?_
    exact ⟨(h.size n).1 hcell'.1, h.grammar.mem_kinds_iff.1 hcell'.2⟩

end Aligned

end Automaton

end Lalr
