import Lalr.Parser
import Lalr.Proofs.Cells

/-!
# Paths through the automaton

The states on a stack form a path through the automaton, and the symbols along the path are the symbols of
the nodes.  `Path.Spells` says this.  A core that the current state reaches has its body, up to the dot, on
top of the stack, and below it stands a state that reaches the beginning of the rule
(`Path.Spells.exists_drop?`).

Therefore a reduction that the table calls for always finds the body of its rule on the stack and a
transition to go to (`Path.Spells.exists_reducePath`), and it leads from one path through the automaton to
another.
-/

namespace Lalr

namespace Automaton.Explored

variable {g : Augmented} {a : Automaton} (h : a.Explored g)
include h

/-- A core in the kernel of a state is the beginning of the augmenting rule, or its dot has moved. -/
lemma kernel_cases {n : Nat} {c : Core} (hc : KernelAt a.states n c) :
    n = 0 ∧ c = ⟨0, 0⟩ ∨ n ≠ 0 ∧ ∃ d, c = Core.advance d := by
  by_cases hn : n = 0
  · subst hn
    exact Or.inl ⟨rfl, (h.start c).1 hc⟩
  · refine Or.inr ⟨hn, ?_⟩
    have hlt := lt_size_of_reaches (g := g) (.kernel hc)
    obtain ⟨k, x, -, hgoto⟩ := h.entered (Nat.pos_of_ne_zero hn) hlt
    obtain ⟨d, rest, -, -, heq⟩ := ((h.target hgoto).2.2.2 c).1 hc
    exact ⟨d, heq⟩

/-- No transition leads back to the first state. -/
lemma target_ne_zero {n m : Nat} {x : Symbol} (hgoto : a.goto? n x = some m) : m ≠ 0 := by
  rintro rfl
  obtain ⟨-, -, ⟨d, rest, hd, hm⟩, hkernel⟩ := h.target hgoto
  have hadvance := (h.start _).1 ((hkernel d.advance).2 ⟨d, rest, hd, hm, rfl⟩)
  exact absurd (congrArg Core.dot hadvance) (Nat.succ_ne_zero _)

/-- A state that reaches the beginning of a rule other than the augmenting one meets its left-hand side. -/
lemma meets_of_reaches {n k : Nat} {r : Rule} (hk : k ≠ 0) (hr : g.rules[k]? = some r)
    (hreaches : g.Reaches (KernelAt a.states n) ⟨k, 0⟩) : g.Meets (KernelAt a.states n) r.lhs := by
  generalize hc : (⟨k, 0⟩ : Core) = c at hreaches
  cases hreaches with
  | kernel hkernel =>
    subst hc
    rcases h.kernel_cases hkernel with ⟨-, heq⟩ | ⟨-, d, heq⟩
    · exact absurd (congrArg Core.rule heq) hk
    · exact absurd (congrArg Core.dot heq) (Nat.succ_ne_zero _).symm
  | @expand d n rest hd ho =>
    obtain ⟨r', hr', hm⟩ := ho
    obtain ⟨rfl, -⟩ := Core.mk.inj hc
    obtain rfl := Option.some.inj (hr.symm.trans hr')
    exact ⟨d, rest, hd, hm⟩

end Automaton.Explored

namespace Path

/-- The states of the path are linked by transitions on the given symbols, the last one first. -/
inductive Spells (a : Automaton) : Path → List Symbol → Prop
  /-- A path that has only the first state. -/
  | root : Spells a (Path.root 0) []
  /-- A path that is continued along a transition. -/
  | push {p : Path} {ω : List Symbol} {x : Symbol} {m : Nat} (h : Spells a p ω)
      (hgoto : a.goto? p.top x = some m) : Spells a (p.push m) (x :: ω)

variable {g : Augmented} {a : Automaton} {p : Path} {ω : List Symbol}

/-- A path is as deep as there are symbols along it. -/
lemma Spells.depth_eq (h : p.Spells a ω) : p.depth = ω.length := by
  induction h with
  | root => rfl
  | push _ _ ih => rw [depth_push, ih, List.length_cons]

/-- A path stands in the first state only at its root. -/
lemma Spells.eq_nil_of_top (ha : a.Explored g) (h : p.Spells a ω) (htop : p.top = 0) : ω = [] := by
  cases h with
  | root => rfl
  | push _ hgoto => exact absurd htop (ha.target_ne_zero hgoto)

/-- Leaving the current state of a path leaves the path below it. -/
lemma Spells.of_pop? {q : Path} (h : p.Spells a ω) (hpop : p.pop? = some q) : q.Spells a ω.tail := by
  cases h with
  | root => cases hpop
  | push h _ =>
    obtain rfl := Option.some.inj ((pop?_push _ _).symm.trans hpop)
    exact h

/-- The body of a core, up to the dot, is on top of the path, and below it stands a state that reaches the
beginning of the rule. -/
lemma Spells.exists_drop? (ha : a.Explored g) {c : Core} {r : Rule} (h : p.Spells a ω)
    (hr : g.rules[c.rule]? = some r) (hc : g.Reaches (KernelAt a.states p.top) c) :
    ∃ q ω', p.drop? c.dot = some q ∧ ω = (r.rhs.take c.dot).reverse ++ ω' ∧ q.Spells a ω' ∧
      g.Reaches (KernelAt a.states q.top) ⟨c.rule, 0⟩ := by
  obtain ⟨k, dot⟩ := c
  induction dot generalizing p ω with
  | zero => exact ⟨p, ω, rfl, by simp, h, hc⟩
  | succ dot ih =>
    -- only kernel cores have moved their dot
    have hkernel : KernelAt a.states p.top ⟨k, dot + 1⟩ := by
      generalize heq : (⟨k, dot + 1⟩ : Core) = c at hc
      cases hc with
      | kernel hc => exact hc
      | expand _ _ => exact absurd (congrArg Core.dot heq) (Nat.succ_ne_zero _)
    cases h with
    | root => exact absurd (congrArg Core.dot ((ha.start _).1 hkernel)) (Nat.succ_ne_zero _)
    | @push q ω x m hq hgoto =>
      obtain ⟨d, rest, hd, hm, heq⟩ := ((ha.target hgoto).2.2.2 _).1 hkernel
      obtain rfl : d = ⟨k, dot⟩ := by
        obtain ⟨hrule, hdot⟩ := Core.mk.inj heq
        cases d
        simp_all
      obtain ⟨q', ω', hdrop, hω, hspells, hreaches⟩ := ih hq hr hd
      refine ⟨q', ω', hdrop, ?_, hspells, hreaches⟩
      obtain ⟨r', hr', hx, -⟩ := hm.getElem?
      obtain rfl := Option.some.inj (hr.symm.trans hr')
      rw [List.take_add_one, hx, hω]
      simp

/-- The state below the body of a rule that a complete core of the current state belongs to. -/
lemma Spells.exists_drop?_of_reducible (ha : a.Closed g) (h : p.Spells a ω) {k : Nat} {x : Symbol}
    (hk : a.Reducible g p.top x k) :
    ∃ r q ω', g.rules[k]? = some r ∧ p.drop? r.rhs.length = some q ∧ ω = r.rhs.reverse ++ ω' ∧
      q.Spells a ω' ∧ g.Reaches (KernelAt a.states q.top) ⟨k, 0⟩ := by
  obtain ⟨c, r, rfl, ⟨hr, hdot⟩, hlooks⟩ := hk
  obtain ⟨q, ω', hdrop, hω, hq, hreaches⟩ := h.exists_drop? ha.explored hr (ha.reaches hlooks.hasAt)
  rw [hdot] at hdrop hω
  rw [List.take_length] at hω
  exact ⟨r, q, ω', hr, hdrop, hω, hq, hreaches⟩

/-- A reduction that the table calls for finds the body of its rule on the path and a transition to go to. -/
lemma Spells.exists_reducePath {t : Table} (wf : g.WellFormed) (ha : a.Closed g) (ht : t.Fits g a)
    (h : p.Spells a ω) {k : Nat} {x : Symbol} (hk : t.action? p.top x = some (.reduce k)) :
    ∃ r q m ω', g.rules[k]? = some r ∧ p.drop? r.rhs.length = some q ∧ ω = r.rhs.reverse ++ ω' ∧
      q.Spells a ω' ∧ a.goto? q.top r.lhs = some m ∧ t.gotoAfter q.top r = .ok m ∧
      t.reducePath k p = .ok (q.push m) := by
  obtain ⟨hne, -, hreducible⟩ := ht.of_reduce hk
  obtain ⟨r, q, ω', hr, hdrop, hω, hq, hreaches⟩ := h.exists_drop?_of_reducible ha hreducible
  obtain ⟨m, hgoto⟩ := ha.explored.exists_target (ha.explored.meets_of_reaches hne hr hreaches)
  have hafter : t.gotoAfter q.top r = .ok m := by
    unfold Table.gotoAfter
    rw [ht.action?_of_isNonterminal ha.explored (wf.isNonterminal_lhs hr), hgoto]
    rfl
  refine ⟨r, q, m, ω', hr, hdrop, hω, hq, hgoto, hafter, ?_⟩
  simp [Table.reducePath, Table.rule, ht.rules, hr, hdrop, hafter, bind, Except.bind]

end Path

/-! ### Stacks of nodes -/

namespace Stack

variable {N : Type}

/-- Popping hands out the node on top. -/
lemma nodes_of_pop? {s t : Stack N} {node : N} (h : s.pop? = some (node, t)) : s.nodes = node :: t.nodes := by
  obtain ⟨⟨top, below, depth, hd⟩, nodes, hn⟩ := s
  cases below with
  | nil => cases nodes <;> simp [pop?] at h
  | cons state below =>
    cases nodes with
    | nil => simp at hn
    | cons node' nodes =>
      obtain ⟨rfl, rfl⟩ := Prod.mk.inj (Option.some.inj h)
      rfl

/-- Popping hands out the nodes on top, the deepest one first. -/
lemma popInto?_eq_some {n : Nat} {acc children : List N} {s t : Stack N}
    (h : s.popInto? n acc = some (children, t)) :
    children = (s.nodes.take n).reverse ++ acc ∧ t.nodes = s.nodes.drop n := by
  induction n generalizing acc s with
  | zero =>
    obtain ⟨rfl, rfl⟩ := Prod.mk.inj (Option.some.inj h)
    simp
  | succ n ih =>
    rw [popInto?] at h
    cases hpop : s.pop? with
    | none => simp [hpop] at h
    | some r =>
      rw [hpop] at h
      obtain ⟨hchildren, hnodes⟩ := ih h
      rw [nodes_of_pop? hpop]
      exact ⟨by simp [hchildren], by simp [hnodes]⟩

/-- Popping hands out as many nodes as it was asked for. -/
lemma length_of_popInto? {n : Nat} {acc children : List N} {s t : Stack N}
    (h : s.popInto? n acc = some (children, t)) : children.length = n + acc.length := by
  induction n generalizing acc s with
  | zero =>
    obtain ⟨rfl, -⟩ := Prod.mk.inj (Option.some.inj h)
    simp
  | succ n ih =>
    rw [popInto?] at h
    cases hpop : s.pop? with
    | none => simp [hpop] at h
    | some r =>
      rw [hpop] at h
      rw [ih h, List.length_cons]
      omega

/-- Where the path has enough states, the nodes of a body can be popped. -/
lemma exists_popMany?_eq_some {n : Nat} {s : Stack N} {q : Path} (h : s.path.drop? n = some q) :
    ∃ t, s.popMany? n = some ((s.nodes.take n).reverse, t) ∧ t.path = q ∧ t.nodes = s.nodes.drop n := by
  rw [← map_path_popMany?, Option.map_eq_some_iff] at h
  obtain ⟨⟨children, t⟩, hpop, rfl⟩ := h
  obtain ⟨hchildren, hnodes⟩ := popInto?_eq_some hpop
  rw [List.append_nil] at hchildren
  exact ⟨t, hchildren ▸ hpop, rfl, hnodes⟩

end Stack

/-- The root of the stack of a fitting table is a path through the automaton. -/
lemma Table.Fits.spells_root {N : Type} {g : Augmented} {a : Automaton} {t : Table} (h : t.Fits g a) :
    (Stack.root t.start : Stack N).path.Spells a [] := by
  rw [h.start]
  exact .root

end Lalr
